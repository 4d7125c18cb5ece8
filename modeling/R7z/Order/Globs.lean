import Mathlib.Computability.Language
import Mathlib.Tactic

/-! Patterns whose pieces stand for any word or for one symbol out of a set, over an arbitrary alphabet:
the language of a pattern, and how the fronts of a text that belong to a front of the pattern go on to the
fronts for one more piece. -/

namespace Globs

variable {α : Type}

inductive Piece (α : Type) where
  | anything
  | one (allowed : Set α)

def Piece.words : Piece α → Language α
  | .anything => ⊤
  | .one allowed => {word | ∃ a ∈ allowed, word = [a]}

/-- A word belongs to a pattern when it falls into words of the pieces, in their order. -/
def language (pattern : List (Piece α)) : Language α := (pattern.map Piece.words).prod

@[simp]
theorem language_nil : language ([] : List (Piece α)) = 1 := rfl

theorem language_concat (pattern : List (Piece α)) (piece : Piece α) :
    language (pattern ++ [piece]) = language pattern * piece.words := by
  simp [language]

/-- Membership in a product, by the place where the word is cut. -/
theorem mem_mul_iff_cut {front back : Language α} {word : List α} :
    word ∈ front * back ↔ ∃ cut ≤ word.length, word.take cut ∈ front ∧ word.drop cut ∈ back := by
  rw [Language.mem_mul]
  constructor
  · rintro ⟨a, ha, b, hb, rfl⟩
    exact ⟨a.length, by simp, by simpa using ha, by simpa using hb⟩
  · rintro ⟨cut, -, hfront, hback⟩
    exact ⟨_, hfront, _, hback, List.take_append_drop cut word⟩

/-- The first `t` symbols of the text belong to the first `p` pieces of the pattern. -/
def Reaches (pattern : List (Piece α)) (text : List α) (p t : ℕ) : Prop :=
  text.take t ∈ language (pattern.take p)

section Reaches

variable {pattern : List (Piece α)} {text : List α} {p t : ℕ}

theorem reaches_all : Reaches pattern text pattern.length text.length ↔ text ∈ language pattern := by
  simp [Reaches]

theorem reaches_zero (ht : t ≤ text.length) : Reaches pattern text 0 t ↔ t = 0 := by
  unfold Reaches
  rw [List.take_zero, language_nil, Language.mem_one, List.take_eq_nil_iff]
  constructor
  · rintro (h | rfl)
    · exact h
    · simpa using ht
  · exact Or.inl

/-- One more piece covers the text from a place that was reached without it. -/
theorem reaches_succ {piece : Piece α} (hpiece : pattern[p]? = some piece) (ht : t ≤ text.length) :
    Reaches pattern text (p + 1) t ↔
      ∃ cut ≤ t, Reaches pattern text p cut ∧ (text.take t).drop cut ∈ piece.words := by
  have hlength : (text.take t).length = t := by simpa using ht
  unfold Reaches
  rw [List.take_add_one, hpiece, Option.toList_some, language_concat, mem_mul_iff_cut, hlength]
  refine exists_congr fun cut => and_congr_right fun hcut => ?_
  rw [List.take_take, min_eq_left hcut]

theorem reaches_anything (hpiece : pattern[p]? = some .anything) (ht : t ≤ text.length) :
    Reaches pattern text (p + 1) t ↔ ∃ cut ≤ t, Reaches pattern text p cut := by
  rw [reaches_succ hpiece ht]
  refine exists_congr fun cut => and_congr_right fun _ => ?_
  exact and_iff_left trivial

theorem reaches_anything_zero (hpiece : pattern[p]? = some .anything) :
    Reaches pattern text (p + 1) 0 ↔ Reaches pattern text p 0 := by
  rw [reaches_anything hpiece (Nat.zero_le _)]
  simp

theorem reaches_anything_succ (hpiece : pattern[p]? = some .anything) (ht : t + 1 ≤ text.length) :
    Reaches pattern text (p + 1) (t + 1) ↔
      Reaches pattern text (p + 1) t ∨ Reaches pattern text p (t + 1) := by
  rw [reaches_anything hpiece ht, reaches_anything hpiece (Nat.le_of_succ_le ht)]
  constructor
  · rintro ⟨cut, hcut, h⟩
    rcases Nat.le_succ_iff.mp hcut with hcut | rfl
    · exact .inl ⟨cut, hcut, h⟩
    · exact .inr h
  · rintro (⟨cut, hcut, h⟩ | h)
    · exact ⟨cut, Nat.le_succ_of_le hcut, h⟩
    · exact ⟨t + 1, le_rfl, h⟩

theorem not_reaches_one_zero {allowed : Set α} (hpiece : pattern[p]? = some (.one allowed)) :
    ¬Reaches pattern text (p + 1) 0 := by
  rw [reaches_succ hpiece (Nat.zero_le _)]
  rintro ⟨cut, -, -, a, -, ha⟩
  simp at ha

theorem reaches_one_succ {allowed : Set α} (hpiece : pattern[p]? = some (.one allowed))
    (ht : t < text.length) :
    Reaches pattern text (p + 1) (t + 1) ↔ Reaches pattern text p t ∧ text[t] ∈ allowed := by
  have hlast : (text.take (t + 1)).drop t = [text[t]] := by
    rw [List.take_add_one, List.getElem?_eq_getElem ht, Option.toList_some,
      List.drop_left' (by simp; omega)]
  rw [reaches_succ hpiece ht]
  constructor
  · rintro ⟨cut, hcut, hreached, a, ha, hword⟩
    -- one symbol is left behind the cut
    have hlength := congrArg List.length hword
    simp at hlength
    obtain rfl : cut = t := by omega
    rw [hlast] at hword
    exact ⟨hreached, by rw [(List.cons.inj hword).1]; exact ha⟩
  · rintro ⟨hreached, ha⟩
    exact ⟨t, Nat.le_succ t, hreached, text[t], ha, hlast⟩

end Reaches

theorem foldl_finRange {σ : Type} {n : ℕ} {f : σ → Fin n → σ} (keeps : ℕ → σ → Prop)
    (hstep : ∀ (i : Fin n) (s : σ), keeps i s → keeps (i + 1) (f s i)) {s : σ} (hs : keeps 0 s) :
    keeps n ((List.finRange n).foldl f s) := by
  induction n with
  | zero => simpa using hs
  | succ n ih =>
    rw [List.finRange_succ_last, List.foldl_append, List.foldl_map]
    exact hstep (Fin.last n) _ (ih fun i s => hstep i.castSucc s)

end Globs
