import Mathlib.Tactic

/-! A list cut into pieces whose sizes are told for each number, and where a position is in them. -/

namespace Pieces

variable {α : Type}

/-- The pieces from the `i`th on: as long as told, but for the last, which may be shorter. -/
inductive Cut (size : ℕ → ℕ) : ℕ → List α → List (List α) → Prop where
  | last {i : ℕ} {items : List α} : items ≠ [] → items.length ≤ size i → Cut size i items [items]
  | more {i : ℕ} {piece rest : List α} {pieces : List (List α)} : piece ≠ [] → piece.length = size i →
      Cut size (i + 1) rest pieces → Cut size i (piece ++ rest) (piece :: pieces)

variable {size : ℕ → ℕ} {i : ℕ} {items : List α} {pieces : List (List α)}

theorem Cut.items_ne_nil (h : Cut size i items pieces) : items ≠ [] := by
  cases h with
  | last hitems _ => exact hitems
  | more hpiece _ _ => exact fun hnil => hpiece (List.append_eq_nil_iff.mp hnil).1

theorem Cut.pieces_pos (h : Cut size i items pieces) : 0 < pieces.length := by
  cases h with
  | last _ _ => exact Nat.one_pos
  | more _ _ _ => exact Nat.succ_pos _

theorem Cut.flatten (h : Cut size i items pieces) : pieces.flatten = items := by
  induction h with
  | last _ _ => exact List.append_nil _
  | more _ _ _ ih => rw [List.flatten_cons, ih]

theorem Cut.ne_nil (h : Cut size i items pieces) : ∀ piece ∈ pieces, piece ≠ [] := by
  induction h with
  | last hitems _ => exact List.forall_mem_singleton.mpr hitems
  | more hpiece _ _ ih => exact List.forall_mem_cons.mpr ⟨hpiece, ih⟩

theorem Cut.pieces_le (h : Cut size i items pieces) : pieces.length ≤ items.length := by
  induction h with
  | last hitems _ => exact List.length_pos_iff.mpr hitems
  | more hpiece _ _ ih =>
    have hpos := List.length_pos_iff.mpr hpiece
    rw [List.length_cons, List.length_append]
    omega

theorem Cut.length_eq (h : Cut size i items pieces) {j : ℕ} {piece : List α} (hj : pieces[j]? = some piece)
    (hnext : j + 1 < pieces.length) : piece.length = size (i + j) := by
  induction h generalizing j with
  | last _ _ => exact absurd hnext (by rw [List.length_singleton]; omega)
  | more _ hlength _ ih =>
    cases j with
    | zero =>
      rw [List.getElem?_cons_zero, Option.some.injEq] at hj
      rw [← hj, hlength, Nat.add_zero]
    | succ j =>
      rw [List.getElem?_cons_succ] at hj
      rw [List.length_cons] at hnext
      rw [ih hj (by omega), Nat.add_right_comm, Nat.add_assoc]

theorem Cut.length_le (h : Cut size i items pieces) {j : ℕ} {piece : List α} (hj : pieces[j]? = some piece) :
    piece.length ≤ size (i + j) := by
  induction h generalizing j with
  | last _ hle =>
    cases j with
    | zero =>
      rw [List.getElem?_cons_zero, Option.some.injEq] at hj
      rwa [← hj]
    | succ j => cases hj
  | more _ hlength _ ih =>
    cases j with
    | zero =>
      rw [List.getElem?_cons_zero, Option.some.injEq] at hj
      rw [← hj, hlength, Nat.add_zero]
    | succ j =>
      rw [List.getElem?_cons_succ] at hj
      have hle := ih hj
      rwa [Nat.add_right_comm, Nat.add_assoc] at hle

theorem Cut.unique (h : Cut size i items pieces) {pieces' : List (List α)} (h' : Cut size i items pieces') :
    pieces = pieces' := by
  induction h generalizing pieces' with
  | last hitems hle =>
    cases h' with
    | last _ _ => rfl
    | more hpiece hlength hrest =>
      rw [List.length_append, hlength] at hle
      exact absurd (List.length_eq_zero_iff.mp (by omega)) hrest.items_ne_nil
  | @more i piece rest pieces hpiece hlength hrest ih =>
    generalize hwhole : piece ++ rest = whole at h'
    cases h' with
    | last _ hle =>
      rw [← hwhole, List.length_append, hlength] at hle
      exact absurd (List.length_eq_zero_iff.mp (by omega)) hrest.items_ne_nil
    | @more _ piece' rest' _ _ hlength' hrest' =>
      obtain ⟨hpieces, hrests⟩ := List.append_inj hwhole (hlength.trans hlength'.symm)
      subst hpieces hrests
      rw [ih hrest']

theorem Cut.cons_or_last (h : Cut size i items pieces) :
    (items.length ≤ size i ∧ pieces = [items]) ∨
    (size i < items.length ∧ ∃ rest, pieces = items.take (size i) :: rest ∧
      Cut size (i + 1) (items.drop (size i)) rest) := by
  cases h with
  | last _ hle => exact .inl ⟨hle, rfl⟩
  | @more _ piece rest pieces _ hlength hrest =>
    refine .inr ⟨?_, pieces, ?_, ?_⟩
    · have hpos := List.length_pos_iff.mpr hrest.items_ne_nil
      rw [List.length_append, hlength]
      omega
    · rw [List.take_left' hlength]
    · rwa [List.drop_left' hlength]

theorem Cut.count (h : Cut size i items pieces) {width : ℕ} (hwidth : 0 < width)
    (hsize : ∀ j, i ≤ j → size j = width) : pieces.length = (items.length + (width - 1)) / width := by
  induction h with
  | last hitems hle =>
    have hpos := List.length_pos_iff.mpr hitems
    rw [hsize _ le_rfl] at hle
    rw [List.length_singleton, eq_comm, Nat.div_eq_iff hwidth]
    omega
  | more _ hlength _ ih =>
    rw [hsize _ le_rfl] at hlength
    rw [List.length_cons, ih fun j hj => hsize j (by omega), List.length_append, hlength, Nat.add_assoc,
      Nat.add_div_left _ hwidth]

end Pieces
