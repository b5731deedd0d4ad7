import Shorthand.Proofs.Toml.Strings
import Shorthand.Toml.Printer
import Shorthand.Toml.Value

/-!
Dotted keys. The keys that are read carry white space where white space may stand and are spelled
so that they are read again.
-/

namespace Shorthand
namespace Toml

variable {s rest name : Text} {α : Type}

namespace Reader

/-- The name of a key, quoted or bare. -/
def keyName : Reader Text :=
  basic <|> literal <|> bareKey

theorem segment_eq : segment = (do
    let before ← spaces
    let (name, spelling) ← spelled keyName
    let after ← spaces
    return { name, spelling, inner := ⟨some before, some after⟩ }) := rfl

end Reader

def opensKey (c : Char) : Bool :=
  isQuote c || isBareChar c

/-- White space at every place of a key that records any. -/
structure Key.Sound (k : Key) : Prop where
  spelled : Reader.Takes Reader.keyName k.spelling k.name isBareChar
  before : ∀ t ∈ k.decor.before, IsGap t
  after : ∀ t ∈ k.decor.after, IsSpaces t
  innerBefore : ∀ t ∈ k.inner.before, IsSpaces t
  innerAfter : ∀ t ∈ k.inner.after, IsSpaces t

/-- No line ends in front of the key either. -/
structure Key.Tight (k : Key) : Prop extends k.Sound where
  before_spaces : ∀ t ∈ k.decor.before, IsSpaces t

namespace Reader

theorem bareKey_eq_ok : bareKey s = .ok (name, rest) ↔
    name ≠ [] ∧ s.takeWhile isBareChar = name ∧ s.dropWhile isBareChar = rest := by
  simp only [bareKey, bind_eq_ok, takeWhile_eq_ok, guard_eq_ok, pure_eq_ok]
  constructor
  · rintro ⟨n, mid, ⟨rfl, rfl⟩, -, -, ⟨hne, rfl⟩, rfl, rfl⟩
    exact ⟨hne, rfl, rfl⟩
  · rintro ⟨hne, rfl, rfl⟩
    exact ⟨_, _, ⟨rfl, rfl⟩, (), _, ⟨hne, rfl⟩, rfl, rfl⟩

theorem keyName_bare (hne : name ≠ []) (h : ∀ c ∈ name, isBareChar c = true) :
    Takes keyName name name isBareChar := by
  intro rest hrest
  have hquote (c : Char) (hc : isBareChar c = false) : Stops (· == c) (name ++ rest) := by
    obtain ⟨x, name, rfl⟩ := List.exists_cons_of_ne_nil hne
    refine stops_cons.mpr (beq_eq_false_iff_ne.mpr ?_)
    rintro rfl
    rw [h x List.mem_cons_self] at hc
    contradiction
  obtain ⟨htake, hdrop⟩ := takeWhile_append h hrest
  exact orElse_eq_ok.mpr (.inr ⟨fails_of_exactly (hquote '"' rfl), orElse_eq_ok.mpr (.inr
    ⟨fails_of_exactly (hquote '\'' rfl), bareKey_eq_ok.mpr ⟨hne, htake, hdrop⟩⟩)⟩)

/-- A key is read by itself, and its first character shows that it is one. -/
theorem keyName_eq_ok (h : keyName s = .ok (name, rest)) :
    ∃ t, s = t ++ rest ∧ Takes keyName t name isBareChar := by
  rcases orElse_eq_ok.mp h with h | ⟨-, h⟩
  · obtain ⟨t, rfl, ht, -⟩ := basic_eq_ok h
    exact ⟨'"' :: t, rfl, fun other _ => orElse_eq_ok.mpr (.inl (ht other))⟩
  rcases orElse_eq_ok.mp h with h | ⟨-, h⟩
  · obtain ⟨t, rfl, ht, -⟩ := literal_eq_ok h
    exact ⟨'\'' :: t, rfl, fun other _ => orElse_eq_ok.mpr (.inr
      ⟨fails_of_exactly (by simp), orElse_eq_ok.mpr (.inl (ht other))⟩)⟩
  · obtain ⟨hne, rfl, rfl⟩ := bareKey_eq_ok.mp h
    exact ⟨_, List.takeWhile_append_dropWhile.symm,
      keyName_bare hne fun c hc => List.mem_takeWhile_imp hc⟩

theorem exists_opensKey_of_keyName (h : keyName s = .ok (name, rest)) :
    ∃ c s', s = c :: s' ∧ opensKey c = true := by
  rcases orElse_eq_ok.mp h with h | ⟨-, h⟩
  · obtain ⟨t, rfl, -⟩ := basic_eq_ok h
    exact ⟨_, _, rfl, rfl⟩
  rcases orElse_eq_ok.mp h with h | ⟨-, h⟩
  · obtain ⟨t, rfl, -⟩ := literal_eq_ok h
    exact ⟨_, _, rfl, rfl⟩
  · obtain ⟨hne, rfl, -⟩ := bareKey_eq_ok.mp h
    cases s with
    | nil => contradiction
    | cons c s =>
        refine ⟨c, s, rfl, ?_⟩
        by_contra hc
        have hbare : ¬ isBareChar c = true := by simp_all [opensKey]
        exact hne (List.takeWhile_cons_of_neg hbare)

end Reader

theorem Key.Sound.spelling_eq_cons {k : Key} (h : k.Sound) :
    ∃ c s, k.spelling = c :: s ∧ opensKey c = true := by
  have hread := h.spelled [] stops_nil
  rw [List.append_nil] at hread
  exact Reader.exists_opensKey_of_keyName hread

theorem Key.Sound.bare (hne : name ≠ []) (h : ∀ c ∈ name, isBareChar c = true) :
    (Key.bare name).Tight where
  spelled := Reader.keyName_bare hne h
  before := nofun
  after := nofun
  innerBefore := nofun
  innerAfter := nofun
  before_spaces := nofun

namespace Reader

theorem segment_eq_ok {k : Key} (h : segment s = .ok (k, rest)) :
    k.Tight ∧ k.decor = {} := by
  rw [segment_eq] at h
  obtain ⟨before, s₁, hbefore, h⟩ := bind_eq_ok.mp h
  obtain ⟨⟨name, spelling⟩, s₂, hname, h⟩ := bind_eq_ok.mp h
  obtain ⟨after, s₃, hafter, h⟩ := bind_eq_ok.mp h
  obtain ⟨rfl, rfl⟩ := pure_eq_ok.mp h
  obtain ⟨t, hs₁, ht⟩ := keyName_eq_ok (spelled_eq_ok.mp hname).1
  have hspaces {t : Text} : ∀ t' ∈ (some t), IsSpaces t → IsSpaces t' := by
    rintro t' ⟨⟩ h
    exact h
  refine ⟨{ spelled := ?_, before := nofun, after := nofun, before_spaces := nofun,
            innerBefore := fun t ht => hspaces t ht (spaces_eq_ok hbefore).2
            innerAfter := fun t ht => hspaces t ht (spaces_eq_ok hafter).2 }, rfl⟩
  rw [spelled_of_eq_append hname hs₁]
  exact ht

theorem segments_eq_ok {fuel : Nat} {keys : List Key} (h : segments fuel s = .ok (keys, rest)) :
    keys ≠ [] ∧ ∀ k ∈ keys, k.Tight ∧ k.decor = {} := by
  induction fuel generalizing s keys rest with
  | zero => exact absurd h not_failure_eq_ok
  | succ fuel ih =>
      obtain ⟨first, mid, hfirst, h⟩ := bind_eq_ok.mp h
      have hsound := segment_eq_ok hfirst
      obtain ⟨o, mid', ho, h⟩ := bind_eq_ok.mp h
      cases o with
      | none =>
          obtain ⟨rfl, -⟩ := pure_eq_ok.mp h
          exact ⟨by simp, by simpa using hsound⟩
      | some u =>
          obtain ⟨more, mid'', hmore, h⟩ := bind_eq_ok.mp h
          obtain ⟨rfl, -⟩ := pure_eq_ok.mp h
          exact ⟨by simp, List.forall_mem_cons.mpr ⟨hsound, (ih hmore).2⟩⟩

end Reader

theorem decorateKey_tight {outerBefore outerAfter : Option Text} {keys : List Key}
    (hbefore : ∀ t ∈ outerBefore, IsSpaces t) (hafter : ∀ t ∈ outerAfter, IsSpaces t)
    (h : ∀ k ∈ keys, k.Tight) : ∀ k ∈ decorateKey outerBefore outerAfter keys, k.Tight := by
  induction keys with
  | nil => nofun
  | cons k keys ih =>
      obtain ⟨hk, hkeys⟩ := List.forall_mem_cons.mp h
      cases keys with
      | nil =>
          rintro k' hk'
          obtain rfl := List.mem_singleton.mp hk'
          exact {
            spelled := hk.spelled
            before := fun t ht => (hbefore t ht).isGap
            after := hafter
            innerBefore := hk.innerBefore
            innerAfter := by rintro t ⟨⟩; exact isSpaces_nil
            before_spaces := hbefore }
      | cons next keys => exact List.forall_mem_cons.mpr ⟨hk, ih hkeys⟩

theorem decorateKeys_tight {keys : List Key} (h : ∀ k ∈ keys, k.Tight) :
    ∀ k ∈ decorateKeys keys, k.Tight := by
  cases keys with
  | nil => nofun
  | cons first keys =>
      obtain ⟨hfirst, hkeys⟩ := List.forall_mem_cons.mp h
      refine decorateKey_tight hfirst.innerBefore ?_ (List.forall_mem_cons.mpr ⟨?_, hkeys⟩)
      · intro t ht
        obtain ⟨last, hlast, ht⟩ := Option.bind_eq_some_iff.mp ht
        exact (h last (List.mem_of_getLast? hlast)).innerAfter t ht
      · exact {
          spelled := hfirst.spelled
          before := hfirst.before
          after := hfirst.after
          innerBefore := by rintro t ⟨⟩; exact isSpaces_nil
          innerAfter := hfirst.innerAfter
          before_spaces := hfirst.before_spaces }

theorem decorateKey_map_name (outerBefore outerAfter : Option Text) (keys : List Key) :
    (decorateKey outerBefore outerAfter keys).map Key.name = keys.map Key.name := by
  induction keys with
  | nil => rfl
  | cons k keys ih =>
      cases keys with
      | nil => rfl
      | cons next keys => exact congrArg (k.name :: ·) ih

theorem decorateKeys_map_name (keys : List Key) :
    (decorateKeys keys).map Key.name = keys.map Key.name := by
  cases keys with
  | nil => rfl
  | cons first keys => rw [decorateKeys, decorateKey_map_name]; rfl

namespace Reader

theorem dottedKey_eq_ok {keys : List Key} (h : dottedKey s = .ok (keys, rest)) :
    keys ≠ [] ∧ ∀ k ∈ keys, k.Tight := by
  obtain ⟨read, mid, hread, h⟩ := bind_eq_ok.mp h
  obtain ⟨u, mid', -, h⟩ := bind_eq_ok.mp h
  obtain ⟨rfl, -⟩ := pure_eq_ok.mp h
  obtain ⟨hne, hsound⟩ := segments_eq_ok hread
  refine ⟨?_, decorateKeys_tight fun k hk => (hsound k hk).1⟩
  intro hnil
  have hnames := decorateKeys_map_name read
  rw [hnil] at hnames
  exact hne (List.map_eq_nil_iff.mp hnames.symm)

/-- At such a character a key goes on. -/
def continuesKey (c : Char) : Bool :=
  isSpace c || isBareChar c || c = '.'

theorem isSpace_of_isBareChar {c : Char} (h : isBareChar c = true) : isSpace c = false := by
  by_contra hc
  simp only [isSpace, Bool.or_eq_true, decide_eq_true_eq, Bool.not_eq_false] at hc
  rcases hc with rfl | rfl <;> contradiction

theorem segment_append {k : Key} (hk : k.Sound) {before after : Text} (hbefore : IsSpaces before)
    (hafter : IsSpaces after) (hrest : Stops isSpace rest)
    (hend : after = [] → Stops isBareChar rest) :
    ∃ k', segment (before ++ (k.spelling ++ (after ++ rest))) = .ok (k', rest) ∧
      k'.name = k.name := by
  obtain ⟨c, t, hspelling, hc⟩ := hk.spelling_eq_cons
  have hstops : Stops isSpace (k.spelling ++ (after ++ rest)) := by
    rw [hspelling]
    refine stops_cons.mpr ?_
    rcases Bool.or_eq_true_iff.mp hc with hc | hc
    · rcases isQuote_iff.mp hc with rfl | rfl <;> rfl
    · exact isSpace_of_isBareChar hc
  have hbare : Stops isBareChar (after ++ rest) := by
    cases after with
    | nil => exact hend rfl
    | cons x after =>
        refine stops_cons.mpr ?_
        by_contra hx
        have := isSpace_of_isBareChar (by simpa using hx)
        rw [hafter x List.mem_cons_self] at this
        contradiction
  rw [segment_eq]
  refine ⟨⟨k.name, k.spelling, {}, ⟨some before, some after⟩⟩, ?_, rfl⟩
  exact bind_eq_ok.mpr ⟨before, _, spaces_takes hbefore _ hstops, bind_eq_ok.mpr
    ⟨(k.name, k.spelling), _, spelled_append (hk.spelled _ hbare), bind_eq_ok.mpr
      ⟨after, _, spaces_takes hafter _ hrest, rfl⟩⟩⟩

theorem isSpaces_getD {o : Option Text} (h : ∀ t ∈ o, IsSpaces t) : IsSpaces (o.getD []) := by
  cases o with
  | none => exact isSpaces_nil
  | some t => exact h t rfl

theorem segments_append {keys : List Key} (hne : keys ≠ []) (hkeys : ∀ k ∈ keys, k.Sound)
    {before after : Text} (hbefore : IsSpaces before) (hafter : IsSpaces after)
    (hrest : Stops continuesKey rest) {fuel : Nat} (hfuel : keys.length ≤ fuel) :
    ∃ keys', segments fuel (before ++ (writeSegments keys ++ (after ++ rest))) =
      .ok (keys', rest) ∧ keys'.map Key.name = keys.map Key.name := by
  have hstops {p : Char → Bool} (hp : ∀ c, p c = true → continuesKey c = true) : Stops p rest := by
    intro c hc
    by_contra h
    have := hp c (by simpa using h)
    rw [hrest c hc] at this
    contradiction
  induction keys generalizing before fuel with
  | nil => contradiction
  | cons k keys ih =>
      obtain ⟨hk, hmore⟩ := List.forall_mem_cons.mp hkeys
      obtain ⟨fuel, rfl⟩ : ∃ m, fuel = m + 1 := ⟨fuel - 1, by simp at hfuel; omega⟩
      cases keys with
      | nil =>
          obtain ⟨k', hread, hname⟩ := segment_append hk hbefore hafter
            (hstops fun c hc => by simp [continuesKey, hc])
            fun _ => hstops fun c hc => by simp [continuesKey, hc]
          have hdot : Fails (exactly ['.']) rest :=
            exactly_fails (hstops fun c hc => by simp_all [continuesKey])
          refine ⟨[k'], ?_, by simp [hname]⟩
          rw [segments, writeSegments, bind_run hread,
            bind_run (optional?_of_fails hdot)]
          rfl
      | cons next keys =>
          have hk' := isSpaces_getD hk.innerAfter
          have hnext := isSpaces_getD (hmore next List.mem_cons_self).innerBefore
          have hdot : Stops isSpace ('.' :: (next.inner.before.getD [] ++
              (writeSegments (next :: keys) ++ (after ++ rest)))) := stops_cons.mpr rfl
          obtain ⟨k', hread, hname⟩ :=
            segment_append hk hbefore hk' hdot fun _ => stops_cons.mpr rfl
          have hfuel' : (next :: keys).length ≤ fuel := by simpa using hfuel
          obtain ⟨keys', hreads, hnames⟩ := ih (by simp) hmore hnext hfuel'
          refine ⟨k' :: keys', ?_, by rw [List.map_cons, hnames, hname]; rfl⟩
          have htext : before ++ (writeSegments (k :: next :: keys) ++ (after ++ rest)) =
              before ++ (k.spelling ++ (k.inner.after.getD [] ++ ('.' ::
                (next.inner.before.getD [] ++ (writeSegments (next :: keys) ++
                  (after ++ rest)))))) := by
            simp [writeSegments, hk'.withoutReturns, hnext.withoutReturns]
          rw [htext, segments, bind_run hread,
            bind_run (optional?_of_eq_ok (exactly_cons '.' _))]
          exact bind_eq_ok.mpr ⟨keys', rest, hreads, rfl⟩

theorem length_le_writeSegments {keys : List Key} (h : ∀ k ∈ keys, k.Sound) :
    keys.length ≤ (writeSegments keys).length := by
  induction keys with
  | nil => simp
  | cons k keys ih =>
      obtain ⟨hk, hmore⟩ := List.forall_mem_cons.mp h
      obtain ⟨c, t, hspelling, -⟩ := hk.spelling_eq_cons
      cases keys with
      | nil => simp [writeSegments, hspelling]
      | cons next keys =>
          have := ih hmore
          simp only [writeSegments, List.length_append, List.length_cons] at this ⊢
          omega

/-- Keys that are written out are read again up to their white space. -/
theorem dottedKey_append {keys : List Key} (hne : keys ≠ []) (hkeys : ∀ k ∈ keys, k.Sound)
    (hdepth : keys.length < depthLimit) {before after : Text} (hbefore : IsSpaces before)
    (hafter : IsSpaces after) (hrest : Stops continuesKey rest) :
    ∃ keys', dottedKey (before ++ (writeSegments keys ++ (after ++ rest))) = .ok (keys', rest) ∧
      keys'.map Key.name = keys.map Key.name := by
  have hlength := length_le_writeSegments hkeys
  have hfuel : keys.length ≤ (before ++ (writeSegments keys ++ (after ++ rest))).length + 1 := by
    simp only [List.length_append]
    omega
  obtain ⟨keys', hread, hnames⟩ := segments_append hne hkeys hbefore hafter hrest hfuel
  refine ⟨decorateKeys keys', ?_, by rw [decorateKeys_map_name, hnames]⟩
  have hcount : keys'.length = keys.length := by
    simpa using congrArg List.length hnames
  rw [dottedKey, bind_run (x := bounded segments) hread,
    bind_run (guard_eq_ok (u := ()) |>.mpr ⟨by omega, rfl⟩)]
  rfl

end Reader
end Toml
end Shorthand
