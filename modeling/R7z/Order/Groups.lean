import Mathlib.Tactic

/-! A list cut into groups of one length and the tail that is too short for another group. -/

namespace Groups

variable {α : Type}

def groups (w : ℕ) (l : List α) : List (List α) :=
  if 0 < w ∧ w ≤ l.length then l.take w :: groups w (l.drop w) else []
  termination_by l.length
  decreasing_by
    rename_i h
    rw [List.length_drop]
    omega

def tail (w : ℕ) (l : List α) : List α := l.drop (l.length / w * w)

def Grouped (w : ℕ) (gs : List (List α)) : Prop := ∀ g ∈ gs, g.length = w

theorem Grouped.cons {w : ℕ} {g : List α} {gs : List (List α)} (h : Grouped w (g :: gs)) :
    g.length = w ∧ Grouped w gs := List.forall_mem_cons.mp h

theorem Grouped.append {w : ℕ} {gs hs : List (List α)} (h : Grouped w gs) (h' : Grouped w hs) :
    Grouped w (gs ++ hs) := fun g hg => (List.mem_append.mp hg).elim (h g) (h' g)

theorem Grouped.length_flatten {w : ℕ} {gs : List (List α)} (h : Grouped w gs) :
    gs.flatten.length = gs.length * w := by
  induction gs with
  | nil => simp
  | cons g gs ih =>
    rw [List.flatten_cons, List.length_append, h.cons.1, ih h.cons.2, List.length_cons, Nat.succ_mul,
      Nat.add_comm]

theorem groups_flatten {w : ℕ} (hw : 0 < w) {gs : List (List α)} (h : Grouped w gs) {t : List α}
    (ht : t.length < w) : groups w (gs.flatten ++ t) = gs := by
  induction gs with
  | nil =>
    rw [groups, if_neg]
    rw [List.flatten_nil, List.nil_append]
    omega
  | cons g gs ih =>
    obtain ⟨hg, hgs⟩ := h.cons
    have hlong : w ≤ (g ++ (gs.flatten ++ t)).length := by
      rw [List.length_append, hg]
      exact Nat.le_add_right _ _
    rw [List.flatten_cons, List.append_assoc, groups, if_pos ⟨hw, hlong⟩, List.take_left' hg,
      List.drop_left' hg, ih hgs]

theorem tail_flatten {w : ℕ} (hw : 0 < w) {gs : List (List α)} (h : Grouped w gs) {t : List α}
    (ht : t.length < w) : tail w (gs.flatten ++ t) = t := by
  rw [tail, List.length_append, h.length_flatten, Nat.mul_comm gs.length, Nat.mul_add_div hw,
    Nat.div_eq_of_lt ht, Nat.add_zero, ← h.length_flatten, List.drop_left]

theorem tail_length {w : ℕ} (hw : 0 < w) (l : List α) : (tail w l).length < w := by
  rw [tail, List.length_drop]
  have hmod := Nat.mod_lt l.length hw
  have hdiv := Nat.div_add_mod' l.length w
  omega

theorem groups_grouped {w : ℕ} (l : List α) : Grouped w (groups w l) := by
  induction l using groups.induct w with
  | case1 l h ih =>
    rw [groups, if_pos h]
    exact List.forall_mem_cons.mpr ⟨List.length_take_of_le h.2, ih⟩
  | case2 l h =>
    rw [groups, if_neg h]
    exact fun g hg => absurd hg List.not_mem_nil

theorem groups_append_tail {w : ℕ} (hw : 0 < w) (l : List α) :
    (groups w l).flatten ++ tail w l = l := by
  induction l using groups.induct w with
  | case1 l h ih =>
    have htail : tail w l = tail w (l.drop w) := by
      rw [tail, tail, List.drop_drop, List.length_drop, Nat.div_eq_sub_div hw h.2, Nat.succ_mul,
        Nat.add_comm]
    rw [groups, if_pos h, List.flatten_cons, List.append_assoc, htail, ih, List.take_append_drop]
  | case2 l h =>
    rw [groups, if_neg h, tail, Nat.div_eq_of_lt (by omega), Nat.zero_mul, List.drop_zero,
      List.flatten_nil, List.nil_append]

/-- The cut is carried on with more behind it: the groups that are there stay, and the tail is cut
again with what follows. -/
theorem groups_append {w : ℕ} (hw : 0 < w) (l m : List α) :
    groups w (l ++ m) = groups w l ++ groups w (tail w l ++ m) := by
  have hl : l ++ m = (groups w l ++ groups w (tail w l ++ m)).flatten ++ tail w (tail w l ++ m) := by
    rw [List.flatten_append, List.append_assoc, groups_append_tail hw, ← List.append_assoc,
      groups_append_tail hw]
  conv_lhs => rw [hl]
  exact groups_flatten hw ((groups_grouped l).append (groups_grouped _)) (tail_length hw _)

theorem tail_append {w : ℕ} (hw : 0 < w) (l m : List α) :
    tail w (l ++ m) = tail w (tail w l ++ m) := by
  have hl : l ++ m = (groups w l ++ groups w (tail w l ++ m)).flatten ++ tail w (tail w l ++ m) := by
    rw [List.flatten_append, List.append_assoc, groups_append_tail hw, ← List.append_assoc,
      groups_append_tail hw]
  conv_lhs => rw [hl]
  exact tail_flatten hw ((groups_grouped l).append (groups_grouped _)) (tail_length hw _)

def reverseGroups (w : ℕ) (l : List α) : List α :=
  ((groups w l).map List.reverse).flatten ++ tail w l

theorem reverseGroups_flatten {w : ℕ} (hw : 0 < w) {gs : List (List α)} (h : Grouped w gs)
    {t : List α} (ht : t.length < w) :
    reverseGroups w (gs.flatten ++ t) = (gs.map List.reverse).flatten ++ t := by
  rw [reverseGroups, groups_flatten hw h ht, tail_flatten hw h ht]

theorem Grouped.map_reverse {w : ℕ} {gs : List (List α)} (h : Grouped w gs) :
    Grouped w (gs.map List.reverse) := by
  intro g hg
  obtain ⟨g', hg', rfl⟩ := List.mem_map.mp hg
  rw [List.length_reverse]
  exact h g' hg'

theorem reverseGroups_reverseGroups {w : ℕ} (hw : 0 < w) (l : List α) :
    reverseGroups w (reverseGroups w l) = l := by
  conv_lhs => rw [reverseGroups.eq_def w l]
  rw [reverseGroups_flatten hw (groups_grouped l).map_reverse (tail_length hw l), List.map_map,
    List.reverse_involutive.comp_self, List.map_id, groups_append_tail hw]

theorem reverseGroups_short {w : ℕ} {l : List α} (h : l.length < w) : reverseGroups w l = l :=
  reverseGroups_flatten (Nat.zero_lt_of_lt h) (fun _ hg => absurd hg List.not_mem_nil) h

theorem reverseGroups_append {w : ℕ} (hw : 0 < w) {l : List α} (h : tail w l = []) (m : List α) :
    reverseGroups w (l ++ m) = reverseGroups w l ++ reverseGroups w m := by
  rw [reverseGroups, reverseGroups, reverseGroups, groups_append hw, tail_append hw, h,
    List.nil_append, List.append_nil, List.map_append, List.flatten_append, List.append_assoc]

theorem tail_eq_nil {w : ℕ} {l : List α} (h : w ∣ l.length) : tail w l = [] := by
  rw [tail, Nat.div_mul_cancel h, List.drop_length]

theorem tail_short {w : ℕ} {l : List α} (h : l.length < w) : tail w l = l := by
  rw [tail, Nat.div_eq_of_lt h, Nat.zero_mul, List.drop_zero]

theorem length_reverseGroups {w : ℕ} (hw : 0 < w) (l : List α) :
    (reverseGroups w l).length = l.length := by
  conv_rhs => rw [← groups_append_tail hw l]
  rw [reverseGroups, List.length_append, List.length_append,
    (groups_grouped l).map_reverse.length_flatten, (groups_grouped l).length_flatten,
    List.length_map]

end Groups
