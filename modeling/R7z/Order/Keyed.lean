import Mathlib.Data.List.TakeWhile
import Mathlib.Tactic

/-! A list in which some elements have a key, cut where the key changes. A group begins with an element that
has a key and goes on up to an element with another key; what has none stays with the group before it. -/

namespace Keyed

variable {α β : Type} (key : α → Option β)

/-- What it is for a list to be cut into groups. -/
inductive Cut : List α → List (β × List α) → Prop
  | bare {l : List α} : (∀ x ∈ l, key x = none) → Cut l []
  | group {front tail rest : List α} {a : α} {b : β} {groups : List (β × List α)} :
      (∀ x ∈ front, key x = none) → key a = some b → (∀ x ∈ tail, key x = none ∨ key x = some b) →
      (∀ x, rest.head? = some x → ∃ c, key x = some c ∧ c ≠ b) → Cut rest groups →
      Cut (front ++ (a :: tail ++ rest)) ((b, a :: tail) :: groups)

variable {key}

theorem filter_of_key {p : α → Bool} {b : β} : ∀ {l : List α}, (∀ x ∈ l, key x = none ∨ key x = some b) →
    (l.filter fun x => (key x).isSome && p x).map (fun x => (b, x)) =
      (l.filter p).filterMap fun x => (key x).map fun b => (b, x)
  | [], _ => rfl
  | x :: l, h => by
    obtain ⟨hx, hl⟩ := List.forall_mem_cons.mp h
    have htail := filter_of_key (p := p) hl
    cases hp : p x with
    | false =>
      rw [List.filter_cons_of_neg (by rw [hp, Bool.and_false]; exact Bool.false_ne_true),
        List.filter_cons_of_neg (by rw [hp]; exact Bool.false_ne_true), htail]
    | true =>
      rw [List.filter_cons_of_pos hp]
      rcases hx with hx | hx
      · rw [List.filter_cons_of_neg (by rw [hx]; exact Bool.false_ne_true), htail,
          List.filterMap_cons_none (by rw [hx]; rfl)]
      · rw [List.filter_cons_of_pos (by rw [hx, hp]; rfl), List.map_cons, htail,
          List.filterMap_cons_some (b := (b, x)) (by rw [hx]; rfl)]

/-- Of the elements that are looked for, each one with a key is in one group, the one with its key, and the
groups have them in the order of the list. -/
theorem Cut.pairs {l : List α} {groups : List (β × List α)} (h : Cut key l groups) (p : α → Bool) :
    groups.flatMap (fun group => (group.2.filter fun x => (key x).isSome && p x).map fun x => (group.1, x)) =
      (l.filter p).filterMap fun x => (key x).map fun b => (b, x) := by
  have hbare : ∀ {m : List α}, (∀ x ∈ m, key x = none) →
      (m.filter p).filterMap (fun x => (key x).map fun b => (b, x)) = [] := fun hm =>
    List.filterMap_eq_nil_iff.mpr fun x hx => by rw [hm x (List.mem_of_mem_filter hx)]; rfl
  induction h with
  | bare hnone => exact (hbare hnone).symm
  | @group front tail rest a b groups hfront ha htail hrest _ ih =>
    rw [List.flatMap_cons, ih, List.filter_append, List.filterMap_append, hbare hfront, List.nil_append,
      List.filter_append, List.filterMap_append]
    congr 1
    exact filter_of_key (List.forall_mem_cons.mpr ⟨.inr ha, htail⟩)

theorem Cut.key_mem {l : List α} {groups : List (β × List α)} (h : Cut key l groups) :
    ∀ group ∈ groups, group.1 ∈ l.filterMap key := by
  induction h with
  | bare _ => exact fun group hgroup => absurd hgroup List.not_mem_nil
  | @group front tail rest a b groups hfront ha htail hrest _ ih =>
    intro group hgroup
    rcases List.mem_cons.mp hgroup with rfl | hgroup
    · exact List.mem_filterMap.mpr ⟨a, by simp, ha⟩
    · obtain ⟨x, hx, hkey⟩ := List.mem_filterMap.mp (ih group hgroup)
      exact List.mem_filterMap.mpr ⟨x, by simp [hx], hkey⟩

theorem Cut.increasing [LinearOrder β] {l : List α} {groups : List (β × List α)} (h : Cut key l groups)
    (hsorted : (l.filterMap key).Pairwise (· ≤ ·)) : (groups.map Prod.fst).Pairwise (· < ·) := by
  induction h with
  | bare _ => exact List.Pairwise.nil
  | @group front tail rest a b groups hfront ha htail hrest hcut ih =>
    rw [List.filterMap_append, List.filterMap_append] at hsorted
    obtain ⟨-, hgroups, -⟩ := List.pairwise_append.mp hsorted
    obtain ⟨-, hbehind, hle⟩ := List.pairwise_append.mp hgroups
    have hmem : b ∈ (a :: tail).filterMap key := List.mem_filterMap.mpr ⟨a, List.mem_cons_self, ha⟩
    rw [List.map_cons]
    refine List.pairwise_cons.mpr ⟨fun c hc => ?_, ih hbehind⟩
    obtain ⟨group, hgroup, rfl⟩ := List.mem_map.mp hc
    have hkey := hcut.key_mem group hgroup
    refine lt_of_le_of_ne (hle b hmem _ hkey) fun hsame => ?_
    -- the first key behind the group is another one, and those behind it are not smaller
    cases rest with
    | nil => exact absurd hkey List.not_mem_nil
    | cons x rest =>
      obtain ⟨d, hx, hd⟩ := hrest x rfl
      rw [List.filterMap_cons_some hx] at hkey hbehind hle
      have hbd := hle b hmem d List.mem_cons_self
      rcases List.mem_cons.mp hkey with hfirst | hlater
      · exact hd (hfirst.symm.trans hsame.symm)
      · have hdb := (List.pairwise_cons.mp hbehind).1 _ hlater
        exact hd (le_antisymm (hdb.trans hsame.symm.le) hbd)

/-! The pass that cuts -/

section
variable [DecidableEq β]

variable (key) in
def stays (b : β) (a : α) : Bool := key a = none ∨ key a = some b

variable (key) in
def next : List α → Option ((β × List α) × List α)
  | [] => none
  | a :: l =>
    match key a with
    | none => next l
    | some b => some ((b, a :: l.takeWhile (stays key b)), l.dropWhile (stays key b))

variable (key) in
def cut : ℕ → List α → List (β × List α)
  | 0, _ => []
  | turns + 1, l =>
    match next key l with
    | none => []
    | some (group, rest) => group :: cut turns rest

theorem stays_iff {a : α} {b : β} : stays key b a = true ↔ key a = none ∨ key a = some b := by
  unfold stays
  rw [decide_eq_true_eq]

theorem next_none : ∀ {l : List α}, next key l = none → ∀ x ∈ l, key x = none
  | [], _, x, hx => absurd hx List.not_mem_nil
  | a :: l, h, x, hx => by
    unfold next at h
    cases ha : key a with
    | some b =>
      rw [ha] at h
      cases h
    | none =>
      rw [ha] at h
      rcases List.mem_cons.mp hx with rfl | hx
      · exact ha
      · exact next_none h x hx

theorem next_some : ∀ {l rest : List α} {group : β × List α}, next key l = some (group, rest) →
    ∃ front a tail, l = front ++ (a :: tail ++ rest) ∧ group.2 = a :: tail ∧ (∀ x ∈ front, key x = none) ∧
      key a = some group.1 ∧ (∀ x ∈ tail, key x = none ∨ key x = some group.1) ∧
      ∀ x, rest.head? = some x → ∃ c, key x = some c ∧ c ≠ group.1
  | [], _, _, h => by cases h
  | a :: l, rest, group, h => by
    unfold next at h
    cases ha : key a with
    | none =>
      rw [ha] at h
      obtain ⟨front, first, tail, hl, hgroup, hfront, hrest⟩ := next_some h
      refine ⟨a :: front, first, tail, by rw [hl]; rfl, hgroup, ?_, hrest⟩
      exact List.forall_mem_cons.mpr ⟨ha, hfront⟩
    | some b =>
      rw [ha] at h
      cases h
      refine ⟨[], a, l.takeWhile (stays key b), ?_, rfl, fun x hx => absurd hx List.not_mem_nil, ha, ?_, ?_⟩
      · rw [List.nil_append, List.cons_append, List.takeWhile_append_dropWhile]
      · exact fun x hx => stays_iff.mp (List.mem_takeWhile_imp hx)
      · intro x hx
        have hends : stays key b x = false := by
          have hnot := List.head?_dropWhile_not (stays key b) l
          rw [hx] at hnot
          exact hnot
        cases hkey : key x with
        | none => exact absurd (stays_iff.mpr (.inl hkey)) (by rw [hends]; exact Bool.false_ne_true)
        | some c =>
          refine ⟨c, rfl, fun hsame => ?_⟩
          have hstays := stays_iff.mpr (.inr (hsame ▸ hkey))
          rw [hends] at hstays
          cases hstays

theorem cut_cuts : ∀ {turns : ℕ} {l : List α}, l.length ≤ turns → Cut key l (cut key turns l)
  | 0, l, h => .bare (by
      rw [List.length_eq_zero_iff.mp (Nat.le_zero.mp h)]
      exact fun x hx => absurd hx List.not_mem_nil)
  | turns + 1, l, h => by
    unfold cut
    cases hnext : next key l with
    | none => exact .bare (next_none hnext)
    | some found =>
      obtain ⟨⟨b, group⟩, rest⟩ := found
      obtain ⟨front, a, tail, rfl, hgroup, hfront, ha, htail, hrest⟩ := next_some hnext
      obtain rfl : group = a :: tail := hgroup
      refine .group hfront ha htail hrest (cut_cuts ?_)
      simp only [List.length_append, List.length_cons] at h
      omega

end

end Keyed
