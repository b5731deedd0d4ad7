import Mathlib.Data.List.Basic
import Shorthand.Proofs.Fallible
import Shorthand.Toml.Reader

/-!
How readers run: what it means that a reader built from others succeeds or fails, and readers that
take a text off the front of whatever follows it.
-/

namespace Shorthand
namespace Toml
namespace Reader

variable {α β : Type} {s rest : Text}

theorem bind_eq_ok {x : Reader α} {f : α → Reader β} {b : β} :
    (x >>= f) s = .ok (b, rest) ↔ ∃ a mid, x s = .ok (a, mid) ∧ f a mid = .ok (b, rest) := by
  constructor
  · intro h
    obtain ⟨⟨a, mid⟩, hx, hf⟩ := bind_eq_ok_iff.mp h
    exact ⟨a, mid, hx, hf⟩
  · rintro ⟨a, mid, hx, hf⟩
    exact bind_eq_ok_iff.mpr ⟨(a, mid), hx, hf⟩

theorem bind_run {x : Reader α} {f : α → Reader β} {a : α} {mid : Text} (h : x s = .ok (a, mid)) :
    (x >>= f) s = f a mid := by
  change (x s >>= fun r => f r.1 r.2) = f a mid
  rw [h]
  rfl

theorem pure_eq_ok {a b : α} : (pure a : Reader α) s = .ok (b, rest) ↔ a = b ∧ s = rest := by
  change Except.ok (a, s) = Except.ok (b, rest) ↔ _
  rw [Except.ok.injEq, Prod.mk.injEq]

theorem not_throw_eq_ok {a : α} {fault : Fault} :
    ¬ (throw fault : Reader α) s = .ok (a, rest) := nofun

theorem not_failure_eq_ok {a : α} : ¬ (failure : Reader α) s = .ok (a, rest) := nofun

theorem guard_eq_ok {p : Prop} [Decidable p] {u : Unit} :
    (guard p : Reader Unit) s = .ok (u, rest) ↔ p ∧ s = rest := by
  by_cases h : p
  · simp only [guard, h, true_and]
    exact pure_eq_ok.trans (and_iff_right rfl)
  · simp only [guard, h, false_and]
    exact iff_false_intro not_failure_eq_ok

theorem map_eq_ok {x : Reader α} {f : α → β} {b : β} :
    (f <$> x) s = .ok (b, rest) ↔ ∃ a, x s = .ok (a, rest) ∧ f a = b := by
  rw [map_eq_pure_bind, bind_eq_ok]
  simp only [pure_eq_ok]
  constructor
  · rintro ⟨a, mid, hx, hf, rfl⟩
    exact ⟨a, hx, hf⟩
  · rintro ⟨a, hx, hf⟩
    exact ⟨a, rest, hx, hf, rfl⟩

theorem seqRight_eq_ok {x : Reader α} {y : Reader β} {b : β} :
    (x *> y) s = .ok (b, rest) ↔ ∃ a mid, x s = .ok (a, mid) ∧ y mid = .ok (b, rest) := by
  rw [seqRight_eq_bind, bind_eq_ok]

theorem seqLeft_eq_ok {x : Reader α} {y : Reader β} {a : α} :
    (x <* y) s = .ok (a, rest) ↔ ∃ mid b, x s = .ok (a, mid) ∧ y mid = .ok (b, rest) := by
  rw [seqLeft_eq_bind, bind_eq_ok]
  simp only [bind_eq_ok, pure_eq_ok]
  constructor
  · rintro ⟨a', mid, hx, b, mid', hy, rfl, rfl⟩
    exact ⟨mid, b, hx, hy⟩
  · rintro ⟨mid, b, hx, hy⟩
    exact ⟨a, mid, hx, b, rest, hy, rfl, rfl⟩

theorem discard_eq_ok {x : Reader α} {u : Unit} :
    (discard x : Reader Unit) s = .ok (u, rest) ↔ ∃ a, x s = .ok (a, rest) :=
  map_eq_ok.trans ⟨fun ⟨a, h, _⟩ => ⟨a, h⟩, fun ⟨a, h⟩ => ⟨a, h, rfl⟩⟩

theorem ofOption_eq_ok {f : Text → Option (α × Text)} {a : α} :
    ofOption f s = .ok (a, rest) ↔ f s = some (a, rest) := by
  unfold ofOption
  cases f s with
  | none => exact ⟨nofun, nofun⟩
  | some found => rw [Except.ok.injEq, Option.some.injEq]

theorem peek_eq_ok {c : Option Char} : peek s = .ok (c, rest) ↔ s.head? = c ∧ s = rest := by
  unfold peek
  rw [Except.ok.injEq, Prod.mk.injEq]

theorem exactly_eq_ok {t : Text} {u : Unit} : exactly t s = .ok (u, rest) ↔ s = t ++ rest := by
  rw [exactly, ofOption_eq_ok, Option.map_eq_some_iff]
  constructor
  · rintro ⟨r, h, hr⟩
    cases hr
    exact (List.isPrefixOf?_eq_some_iff_append_eq.mp h).symm
  · intro h
    exact ⟨rest, List.isPrefixOf?_eq_some_iff_append_eq.mpr h.symm, rfl⟩

theorem takeWhile_eq_ok {p : Char → Bool} {t : Text} :
    takeWhile p s = .ok (t, rest) ↔ s.takeWhile p = t ∧ s.dropWhile p = rest := by
  unfold takeWhile
  rw [Except.ok.injEq, Prod.mk.injEq]

theorem atEnd_eq_ok {u : Unit} : atEnd s = .ok (u, rest) ↔ s = [] ∧ rest = [] := by
  rw [atEnd, ofOption_eq_ok]
  split
  · rename_i h
    subst h
    simp [eq_comm]
  · rename_i h
    simp [h]

/-- The reader does not read this text. -/
def Fails (x : Reader α) (s : Text) : Prop :=
  ∀ r, x s ≠ .ok r

theorem fails_of_forall {x : Reader α} (h : ∀ a rest, ¬ x s = .ok (a, rest)) : Fails x s :=
  fun r => h r.1 r.2

theorem orElse_run (x y : Reader α) : (x <|> y) s = (x s <|> y s) := rfl

theorem orElse_eq_ok {x y : Reader α} {a : α} :
    (x <|> y) s = .ok (a, rest) ↔
      x s = .ok (a, rest) ∨ Fails x s ∧ y s = .ok (a, rest) := by
  rw [orElse_run]
  unfold Fails
  cases x s with
  | ok r => exact ⟨.inl, fun h => h.elim id fun h => absurd rfl (h.1 r)⟩
  | error fault => exact ⟨fun h => .inr ⟨fun _ => nofun, h⟩, fun h => h.elim nofun And.right⟩

theorem optional?_eq_ok {x : Reader α} {o : Option α} :
    optional? x s = .ok (o, rest) ↔
      (∃ a, o = some a ∧ x s = .ok (a, rest)) ∨ (o = none ∧ s = rest ∧ Fails x s) := by
  unfold optional? Fails
  cases x s with
  | ok r =>
      simp only [Except.ok.injEq, Prod.mk.injEq]
      constructor
      · rintro ⟨rfl, rfl⟩
        exact .inl ⟨r.1, rfl, rfl⟩
      · rintro (⟨a, rfl, rfl⟩ | ⟨-, -, h⟩)
        · exact ⟨rfl, rfl⟩
        · exact absurd rfl (h r)
  | error fault =>
      simp only [Except.ok.injEq, Prod.mk.injEq]
      constructor
      · rintro ⟨rfl, rfl⟩
        exact .inr ⟨rfl, rfl, fun _ => nofun⟩
      · rintro (⟨a, -, h⟩ | ⟨rfl, rfl, -⟩)
        · contradiction
        · exact ⟨rfl, rfl⟩

theorem optional?_of_fails {x : Reader α} (h : Fails x s) : optional? x s = .ok (none, s) :=
  optional?_eq_ok.mpr (.inr ⟨rfl, rfl, h⟩)

theorem optional?_of_eq_ok {x : Reader α} {a : α} (h : x s = .ok (a, rest)) :
    optional? x s = .ok (some a, rest) :=
  optional?_eq_ok.mpr (.inl ⟨a, rfl, h⟩)

theorem exactly_cons (c : Char) (s : Text) : exactly [c] (c :: s) = .ok ((), s) :=
  exactly_eq_ok.mpr rfl

/-- A reader that only takes something off the front tells it from what is left. -/
theorem spelled_eq_ok {x : Reader α} {a : α} {t : Text} :
    spelled x s = .ok ((a, t), rest) ↔
      x s = .ok (a, rest) ∧ t = s.take (s.length - rest.length) := by
  unfold spelled
  rw [map_eq_ok_iff]
  constructor
  · rintro ⟨⟨a', rest'⟩, h, ht⟩
    cases ht
    exact ⟨h, rfl⟩
  · rintro ⟨h, rfl⟩
    exact ⟨(a, rest), h, rfl⟩

theorem spelled_of_eq_append {x : Reader α} {a : α} {t taken : Text}
    (h : spelled x s = .ok ((a, t), rest)) (hs : s = taken ++ rest) : t = taken := by
  obtain ⟨-, rfl⟩ := spelled_eq_ok.mp h
  subst hs
  simp

theorem spelled_append {x : Reader α} {a : α} {t : Text} (h : x (t ++ rest) = .ok (a, rest)) :
    spelled x (t ++ rest) = .ok ((a, t), rest) :=
  spelled_eq_ok.mpr ⟨h, by simp⟩

end Reader

/-- The text does not go on with such a character. -/
def Stops (p : Char → Bool) (s : Text) : Prop :=
  ∀ c ∈ s.head?, p c = false

variable {p : Char → Bool} {s rest : Text}

@[simp] theorem stops_nil : Stops p [] := nofun

@[simp] theorem stops_cons {c : Char} : Stops p (c :: s) ↔ p c = false := by
  simp [Stops]

theorem Stops.append (hs : Stops p s) (hrest : s = [] → Stops p rest) : Stops p (s ++ rest) := by
  cases s with
  | nil => exact hrest rfl
  | cons c s => simpa using hs

theorem takeWhile_append (hs : ∀ c ∈ s, p c = true) (hrest : Stops p rest) :
    (s ++ rest).takeWhile p = s ∧ (s ++ rest).dropWhile p = rest := by
  rw [List.takeWhile_append_of_pos hs, List.dropWhile_append_of_pos hs]
  cases rest with
  | nil => simp
  | cons c rest =>
      have hc : ¬ p c = true := by simpa using hrest
      rw [List.takeWhile_cons_of_neg hc, List.dropWhile_cons_of_neg hc, List.append_nil]
      exact ⟨rfl, rfl⟩

namespace Reader

variable {α β : Type} {x : Reader α} {a : α} {t : Text}

/-- The reader reads the text to the value wherever the text is not followed by a character at
which the reader would go on. -/
def Takes (x : Reader α) (t : Text) (a : α) (goesOn : Char → Bool) : Prop :=
  ∀ rest, Stops goesOn rest → x (t ++ rest) = .ok (a, rest)

/-- The reader reads the text to the value whatever follows. -/
abbrev TakesAll (x : Reader α) (t : Text) (a : α) : Prop :=
  ∀ rest, x (t ++ rest) = .ok (a, rest)

theorem takeWhile_takes {p : Char → Bool} (h : ∀ c ∈ t, p c = true) :
    Takes (takeWhile p) t t p :=
  fun _ hrest => takeWhile_eq_ok.mpr (takeWhile_append h hrest)

theorem exactly_fails (h : Stops (fun x => decide (x = c)) s) : Fails (exactly (c :: t)) s := by
  refine fails_of_forall fun u rest hr => ?_
  rw [exactly_eq_ok.mp hr] at h
  simp at h

end Reader
end Toml
end Shorthand
