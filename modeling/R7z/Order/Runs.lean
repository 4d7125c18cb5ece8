import Mathlib.Tactic

/-! Lists in which equal elements are adjacent, and the pass that recognises them: it goes through the
list once and remembers which runs have ended. -/

namespace Runs

variable {α : Type}

/-- The occurrences of `a` are one run. -/
def Adjacent (a : α) (l : List α) : Prop :=
  ∃ pre n post, l = pre ++ List.replicate n a ++ post ∧ a ∉ pre ∧ a ∉ post

def Leads (a : α) (l : List α) : Prop := ∃ n post, l = List.replicate n a ++ post ∧ a ∉ post

theorem Leads.adjacent {a : α} {l : List α} (h : Leads a l) : Adjacent a l := by
  obtain ⟨n, post, rfl, hpost⟩ := h
  exact ⟨[], n, post, rfl, by simp, hpost⟩

theorem leads_cons_self {a : α} {l : List α} : Leads a (a :: l) ↔ Leads a l := by
  constructor
  · rintro ⟨n, post, h, hpost⟩
    cases n with
    | zero =>
      rw [List.replicate_zero, List.nil_append] at h
      subst h
      exact (hpost List.mem_cons_self).elim
    | succ n =>
      rw [List.replicate_succ, List.cons_append] at h
      exact ⟨n, post, (List.cons.inj h).2, hpost⟩
  · rintro ⟨n, post, rfl, hpost⟩
    exact ⟨n + 1, post, rfl, hpost⟩

theorem leads_cons_ne {a b : α} {l : List α} (hab : a ≠ b) : Leads a (b :: l) ↔ a ∉ l := by
  constructor
  · rintro ⟨n, post, h, hpost⟩
    cases n with
    | zero =>
      rw [List.replicate_zero, List.nil_append] at h
      subst h
      exact fun hl => hpost (List.mem_cons_of_mem _ hl)
    | succ n =>
      rw [List.replicate_succ, List.cons_append] at h
      exact (hab (List.cons.inj h).1.symm).elim
  · intro hl
    refine ⟨0, b :: l, rfl, ?_⟩
    rw [List.mem_cons, not_or]
    exact ⟨hab, hl⟩

theorem adjacent_of_not_mem {a : α} {l : List α} (h : a ∉ l) : Adjacent a l :=
  ⟨l, 0, [], by simp, h, by simp⟩

theorem adjacent_cons_self {a : α} {l : List α} : Adjacent a (a :: l) ↔ Leads a l := by
  constructor
  · rintro ⟨pre, n, post, h, hpre, hpost⟩
    cases pre with
    | nil => exact leads_cons_self.mp ⟨n, post, h, hpost⟩
    | cons b pre =>
      rw [List.cons_append, List.cons_append] at h
      exact (hpre ((List.cons.inj h).1 ▸ List.mem_cons_self)).elim
  · exact fun h => (leads_cons_self.mpr h).adjacent

theorem adjacent_cons_ne {a b : α} {l : List α} (hab : a ≠ b) : Adjacent a (b :: l) ↔ Adjacent a l := by
  constructor
  · rintro ⟨pre, n, post, h, hpre, hpost⟩
    cases pre with
    | nil =>
      have hl : a ∉ l := (leads_cons_ne hab).mp ⟨n, post, h, hpost⟩
      exact adjacent_of_not_mem hl
    | cons c pre =>
      rw [List.cons_append, List.cons_append] at h
      exact ⟨pre, n, post, (List.cons.inj h).2, fun hp => hpre (List.mem_cons_of_mem _ hp), hpost⟩
  · rintro ⟨pre, n, post, rfl, hpre, hpost⟩
    refine ⟨b :: pre, n, post, rfl, ?_, hpost⟩
    rw [List.mem_cons, not_or]
    exact ⟨hab, hpre⟩

variable [DecidableEq α]

def runsFrom : Option α → List α → List α → Bool
  | _, _, [] => true
  | current, seen, a :: as =>
    if current = some a then runsFrom current seen as
    else if a ∈ seen then false
    else runsFrom (some a) (a :: seen) as

/-- What the pass needs of the rest of the list: no run that has ended is opened again. -/
theorem runsFrom_iff {current : Option α} {seen l : List α} (hcurrent : ∀ a, current = some a → a ∈ seen) :
    runsFrom current seen l = true ↔
      (∀ a, a ∉ seen → Adjacent a l) ∧ (∀ a, a ∈ seen → current ≠ some a → a ∉ l) ∧
        ∀ a, current = some a → Leads a l := by
  induction l generalizing current seen with
  | nil =>
    refine iff_of_true rfl ⟨fun a _ => adjacent_of_not_mem (by simp), fun a _ _ => by simp, ?_⟩
    exact fun a _ => ⟨0, [], rfl, by simp⟩
  | cons b l ih =>
    unfold runsFrom
    -- `b` goes on with the open run, or opens one; it may not open one that has ended
    by_cases hb : current = some b
    · rw [if_pos hb, ih hcurrent]
      have hne {a : α} (h : current ≠ some a) : a ≠ b := fun hab => h (hab ▸ hb)
      have hseen : b ∈ seen := hcurrent b hb
      constructor
      · rintro ⟨hnew, hended, hopen⟩
        refine ⟨fun a ha => ?_, fun a ha hca => ?_, fun a ha => ?_⟩
        · exact (adjacent_cons_ne fun hab => ha (by rw [hab]; exact hseen)).mpr (hnew a ha)
        · rw [List.mem_cons, not_or]
          exact ⟨hne hca, hended a ha hca⟩
        · have hab : b = a := Option.some.inj (hb.symm.trans ha)
          rw [← hab, leads_cons_self]
          exact hopen b hb
      · rintro ⟨hnew, hended, hopen⟩
        refine ⟨fun a ha => ?_, fun a ha hca hl => ?_, fun a ha => ?_⟩
        · exact (adjacent_cons_ne fun hab => ha (by rw [hab]; exact hseen)).mp (hnew a ha)
        · exact hended a ha hca (List.mem_cons_of_mem _ hl)
        · have hab : b = a := Option.some.inj (hb.symm.trans ha)
          rw [← hab]
          exact leads_cons_self.mp (hopen b hb)
    · rw [if_neg hb]
      by_cases hmem : b ∈ seen
      · rw [if_pos hmem]
        refine iff_of_false (by simp) fun h => ?_
        exact h.2.1 b hmem hb List.mem_cons_self
      · rw [if_neg hmem, ih fun a ha => Option.some.inj ha ▸ List.mem_cons_self]
        constructor
        · rintro ⟨hnew, hended, hopen⟩
          refine ⟨fun a ha => ?_, fun a ha hca => ?_, fun a ha => ?_⟩
          · by_cases hab : a = b
            · rw [hab, adjacent_cons_self]
              exact hopen b rfl
            · exact (adjacent_cons_ne hab).mpr (hnew a (by simp [hab, ha]))
          · have hab : a ≠ b := fun hab => hmem (hab ▸ ha)
            rw [List.mem_cons, not_or]
            exact ⟨hab, hended a (List.mem_cons_of_mem _ ha) fun h => hab (Option.some.inj h).symm⟩
          · have hab : a ≠ b := fun hab => hb (hab ▸ ha)
            have hl : a ∉ l := hended a (List.mem_cons_of_mem _ (hcurrent a ha))
              fun h => hab (Option.some.inj h).symm
            exact (leads_cons_ne hab).mpr hl
        · rintro ⟨hnew, hended, hopen⟩
          refine ⟨fun a ha => ?_, fun a ha hca hl => ?_, fun a ha => ?_⟩
          · rw [List.mem_cons, not_or] at ha
            exact (adjacent_cons_ne ha.1).mp (hnew a ha.2)
          · have hab : a ≠ b := fun hab => hca (congrArg some hab.symm)
            have ha : a ∈ seen := (List.mem_cons.mp ha).resolve_left hab
            by_cases hopened : current = some a
            · exact (leads_cons_ne hab).mp (hopen a hopened) hl
            · exact hended a ha hopened (List.mem_cons_of_mem _ hl)
          · have hab : b = a := Option.some.inj ha
            rw [← hab]
            exact adjacent_cons_self.mp (hnew b hmem)

/-- The pass accepts exactly the lists in which equal elements are adjacent. -/
theorem runsFrom_none_iff {l : List α} : runsFrom none [] l = true ↔ ∀ a, Adjacent a l := by
  rw [runsFrom_iff (by simp)]
  simp

/-! Numbered runs among other elements -/

/-- Elements with numbers and elements without: those with a number come in runs, whose numbers increase.
The first run may have been opened before. -/
inductive Rising : Option ℕ → ℕ → List (Option ℕ) → Prop where
  | nil {current : Option ℕ} {bound : ℕ} : Rising current bound []
  | other {current : Option ℕ} {bound : ℕ} {numbers : List (Option ℕ)} (h : Rising none bound numbers) :
    Rising current bound (none :: numbers)
  | same {a bound : ℕ} {numbers : List (Option ℕ)} (h : Rising (some a) bound numbers) :
    Rising (some a) bound (some a :: numbers)
  | next {current : Option ℕ} {a bound : ℕ} {numbers : List (Option ℕ)} (hle : bound ≤ a)
    (h : Rising (some a) (a + 1) numbers) : Rising current bound (some a :: numbers)

theorem rising_others {numbers : List (Option ℕ)} (h : ∀ number ∈ numbers, number = none) :
    ∀ (current : Option ℕ) (bound : ℕ), Rising current bound numbers := by
  induction numbers with
  | nil => exact fun _ _ => .nil
  | cons number numbers ih =>
    intro current bound
    obtain ⟨rfl, hrest⟩ := List.forall_mem_cons.mp h
    exact .other (ih hrest none bound)

theorem Rising.append {current : Option ℕ} {bound : ℕ} {front back : List (Option ℕ)}
    (h : Rising current bound front) (hback : ∀ number ∈ back, number = none) :
    Rising current bound (front ++ back) := by
  induction h with
  | nil => exact rising_others hback _ _
  | other _ ih => exact .other ih
  | same _ ih => exact .same ih
  | next hle _ ih => exact .next hle ih

theorem rising_of_sorted {numbered : ℕ → Prop} [DecidablePred numbered] {keys : List ℕ}
    (hsorted : keys.Pairwise (· ≤ ·)) : ∀ {current : Option ℕ} {bound : ℕ},
      (∀ key ∈ keys, bound ≤ key ∨ current = some key ∧ numbered key) →
        Rising current bound (keys.map fun key => if numbered key then some key else none) := by
  induction keys with
  | nil => exact fun _ => .nil
  | cons key keys ih =>
    intro current bound h
    obtain ⟨hkey, hkeys⟩ := List.forall_mem_cons.mp h
    obtain ⟨hle, hsorted⟩ := List.pairwise_cons.mp hsorted
    rw [List.map_cons]
    by_cases hnumbered : numbered key
    · rw [if_pos hnumbered]
      rcases hkey with hbound | ⟨rfl, -⟩
      · refine .next hbound (ih hsorted fun other hother => ?_)
        rcases (hle other hother).eq_or_lt with rfl | hlt
        · exact .inr ⟨rfl, hnumbered⟩
        · exact .inl hlt
      · exact .same (ih hsorted hkeys)
    · rw [if_neg hnumbered]
      have hbound : bound ≤ key := hkey.resolve_right fun h => hnumbered h.2
      exact .other (ih hsorted fun other hother => .inl (hbound.trans (hle other hother)))

end Runs
