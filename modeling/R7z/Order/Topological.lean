import Mathlib.Tactic

/-! Orders in which every node comes after the nodes that lead to it, and the search that finds one: it
keeps the nodes that nothing outside the order leads to any more, and takes one of them at a time. -/

namespace Topological

section
variable {α : Type} {r : α → α → Prop}

/-- Every element of the list comes after all that lead to it. -/
def Ordered (r : α → α → Prop) (order : List α) : Prop :=
  ∀ before v after, order = before ++ v :: after → ∀ u, r u v → u ∈ before

def Acyclic (r : α → α → Prop) : Prop := ∀ v, ¬Relation.TransGen r v v

theorem Ordered.nil : Ordered r [] := by
  intro before v after h
  cases before with
  | nil => cases h
  | cons b before => cases h

theorem Ordered.snoc {order : List α} {v : α} (h : Ordered r order) (hv : ∀ u, r u v → u ∈ order) :
    Ordered r (order ++ [v]) := by
  intro before w after hsplit u huw
  rcases List.eq_nil_or_concat after with rfl | ⟨after', z, rfl⟩
  · obtain ⟨rfl, hw⟩ := List.append_inj' hsplit rfl
    obtain rfl : v = w := List.head_eq_of_cons_eq hw
    exact hv u huw
  · have hassoc : order ++ [v] = (before ++ w :: after') ++ [z] := by
      rw [hsplit, List.concat_eq_append, List.append_assoc, List.cons_append]
    obtain ⟨horder, -⟩ := List.append_inj' hassoc rfl
    exact h before w after' horder u huw

theorem Ordered.idxOf_lt [DecidableEq α] {order : List α} (h : Ordered r order) {u v : α}
    (hv : v ∈ order) (huv : r u v) : order.idxOf u < order.idxOf v := by
  have hlt := List.idxOf_lt_length_iff.mpr hv
  have hsplit : order = order.take (order.idxOf v) ++ v :: order.drop (order.idxOf v + 1) := by
    conv_lhs => rw [← List.take_append_drop (order.idxOf v) order, List.drop_eq_getElem_cons hlt]
    rw [List.getElem_idxOf hlt]
  have hu := h _ v _ hsplit u huv
  have hfront : order.idxOf u = (order.take (order.idxOf v)).idxOf u := by
    conv_lhs => rw [hsplit]
    exact List.idxOf_append_of_mem hu
  have hbound := List.idxOf_lt_length_iff.mpr hu
  rw [List.length_take] at hbound
  rw [hfront]
  exact hbound.trans_le (min_le_left _ _)

theorem Ordered.acyclic [DecidableEq α] {order : List α} (h : Ordered r order)
    (hall : ∀ u v, r u v → v ∈ order) : Acyclic r := by
  have hlt : ∀ u v, Relation.TransGen r u v → order.idxOf u < order.idxOf v := by
    intro u v huv
    induction huv with
    | single huv => exact h.idxOf_lt (hall _ _ huv) huv
    | tail _ hvw ih => exact ih.trans (h.idxOf_lt (hall _ _ hvw) hvw)
  exact fun v hv => Nat.lt_irrefl _ (hlt v v hv)

/-- Among finitely many nodes without a cycle there is one that none of them leads to. -/
theorem Acyclic.exists_first (h : Acyclic r) {s : Finset α} (hs : s.Nonempty) :
    ∃ v ∈ s, ∀ u ∈ s, ¬r u v := by
  let within : s → s → Prop := Relation.TransGen fun u v => r u.1 v.1
  have hwithin : ∀ u v, within u v → Relation.TransGen r u.1 v.1 := by
    intro u v huv
    induction huv with
    | single huv => exact .single huv
    | tail _ hvw ih => exact ih.tail hvw
  have : IsTrans s within := ⟨fun _ _ _ => Relation.TransGen.trans⟩
  have : Std.Irrefl within := ⟨fun v hv => h v.1 (hwithin v v hv)⟩
  obtain ⟨m, -, hm⟩ := (Finite.wellFounded_of_trans_of_irrefl within).has_min Set.univ
    ⟨⟨hs.choose, hs.choose_spec⟩, trivial⟩
  exact ⟨m.1, m.2, fun u hu hum => hm ⟨u, hu⟩ trivial (.single hum)⟩

end

/-! The search. Nodes are numbers, and an edge may be there several times. -/

section
variable (edges : ℕ → List ℕ) (n : ℕ)

def Leads (u v : ℕ) : Prop := u < n ∧ v ∈ edges u

def incoming (order : List ℕ) (v : ℕ) : ℕ :=
  (((List.range n).filter (· ∉ order)).map fun u => (edges u).count v).sum

/-- The state of the search: what was taken so far, what can be taken next, and how many edges into
each node are left. -/
structure Frontier (degree : ℕ → ℕ) (ready order : List ℕ) : Prop where
  nodup : (order ++ ready).Nodup
  lt : ∀ v ∈ order ++ ready, v < n
  degree_eq : ∀ v < n, degree v = incoming edges n order v
  zero_iff : ∀ v < n, degree v = 0 ↔ v ∈ order ++ ready
  ordered : Ordered (Leads edges n) order

variable {edges n} {degree degree' : ℕ → ℕ} {ready order new : List ℕ} {node : ℕ}

theorem incoming_snoc (hnode : node < n) (hnot : node ∉ order) (v : ℕ) :
    incoming edges n order v = incoming edges n (order ++ [node]) v + (edges node).count v := by
  unfold incoming
  have hperm : ((List.range n).filter (· ∉ order)).Perm
      (node :: (List.range n).filter (· ∉ order ++ [node])) := by
    apply (List.perm_ext_iff_of_nodup (List.nodup_range.filter _) ?_).mpr
    · intro u
      simp only [List.mem_filter, List.mem_range, decide_eq_true_eq, List.mem_cons, List.mem_append,
        List.not_mem_nil, or_false, not_or]
      by_cases hu : u = node
      · simp [hu, hnode, hnot]
      · simp [hu]
    · rw [List.nodup_cons]
      exact ⟨by simp, List.nodup_range.filter _⟩
  rw [(hperm.map _).sum_eq, List.map_cons, List.sum_cons, Nat.add_comm]

theorem incoming_eq_zero {v : ℕ} (h : incoming edges n order v = 0) {u : ℕ}
    (hu : Leads edges n u v) : u ∈ order := by
  by_contra hnot
  have hmem : (edges u).count v ∈ ((List.range n).filter (· ∉ order)).map fun u => (edges u).count v :=
    List.mem_map.mpr ⟨u, List.mem_filter.mpr ⟨List.mem_range.mpr hu.1, decide_eq_true hnot⟩, rfl⟩
  have hcount := List.sum_eq_zero_iff.mp h _ hmem
  exact (List.count_pos_iff.mpr hu.2).ne' hcount

namespace Frontier

theorem start (hdegree : ∀ v < n, degree v = incoming edges n [] v) :
    Frontier edges n degree ((List.range n).filter fun v => degree v = 0) [] where
  nodup := List.nodup_range.filter _
  lt v hv := List.mem_range.mp (List.mem_filter.mp hv).1
  degree_eq := hdegree
  zero_iff v hv := by simp [hv]
  ordered := .nil

theorem length_le (h : Frontier edges n degree ready order) : (order ++ ready).length ≤ n := by
  have hsub : order ++ ready ⊆ List.range n := fun v hv => List.mem_range.mpr (h.lt v hv)
  have hlen := (List.subperm_of_subset h.nodup hsub).length_le
  rwa [List.length_range] at hlen

variable (h : Frontier edges n degree (ready ++ [node]) order)
include h

theorem node_lt : node < n := h.lt node (by simp)

theorem node_not_mem : node ∉ order := fun hmem =>
  List.disjoint_of_nodup_append h.nodup hmem (by simp)

theorem count_le {v : ℕ} (hv : v < n) : (edges node).count v ≤ degree v := by
  rw [h.degree_eq v hv, incoming_snoc h.node_lt h.node_not_mem]
  exact Nat.le_add_left _ _

theorem take (hdegree : ∀ v < n, degree' v = degree v - (edges node).count v) (hnew : new.Nodup)
    (hmem : ∀ v, v ∈ new ↔ v < n ∧ 0 < degree v ∧ degree' v = 0) :
    Frontier edges n degree' (ready ++ new) (order ++ [node]) := by
  have hperm : (order ++ [node] ++ (ready ++ new)).Perm (order ++ (ready ++ [node]) ++ new) := by
    rw [List.append_assoc, List.append_assoc]
    apply List.Perm.append_left
    rw [← List.append_assoc]
    exact (List.perm_append_comm).append_right new
  have hdisjoint : ∀ v ∈ new, v ∉ order ++ (ready ++ [node]) := by
    intro v hv hold
    obtain ⟨hlt, hpos, -⟩ := (hmem v).mp hv
    exact hpos.ne' ((h.zero_iff v hlt).mpr hold)
  refine ⟨?_, ?_, ?_, ?_, ?_⟩
  · rw [hperm.nodup_iff]
    exact List.nodup_append.mpr ⟨h.nodup, hnew, fun a ha b hb hab => hdisjoint b hb (hab ▸ ha)⟩
  · intro v hv
    rcases List.mem_append.mp (hperm.mem_iff.mp hv) with hold | hv
    · exact h.lt v hold
    · exact ((hmem v).mp hv).1
  · intro v hv
    rw [hdegree v hv, h.degree_eq v hv, incoming_snoc h.node_lt h.node_not_mem, Nat.add_sub_cancel]
  · intro v hv
    rw [hperm.mem_iff, List.mem_append, ← h.zero_iff v hv, hmem v]
    have hle := hdegree v hv
    constructor
    · intro hzero
      rcases Nat.eq_zero_or_pos (degree v) with hd | hd
      · exact .inl hd
      · exact .inr ⟨hv, hd, hzero⟩
    · rintro (hd | ⟨-, -, hzero⟩)
      · rw [hle, hd, Nat.zero_sub]
      · exact hzero
  · refine h.ordered.snoc fun u hu => ?_
    have hzero : degree node = 0 := (h.zero_iff node h.node_lt).mpr (by simp)
    rw [h.degree_eq node h.node_lt] at hzero
    exact incoming_eq_zero hzero hu

end Frontier

namespace Frontier

theorem perm_range (h : Frontier edges n degree ready order) (hlen : order.length = n) :
    order.Perm (List.range n) := by
  have hsub : order ⊆ List.range n := fun v hv => List.mem_range.mpr (h.lt v (List.mem_append_left _ hv))
  have hnodup : order.Nodup := (List.nodup_append.mp h.nodup).1
  exact (List.subperm_of_subset hnodup hsub).perm_of_length_le (by rw [List.length_range, hlen])

theorem length_eq (h : Frontier edges n degree [] order) (hacyclic : Acyclic (Leads edges n)) :
    order.length = n := by
  by_contra hne
  have hle := h.length_le
  rw [List.append_nil] at hle
  let left : Finset ℕ := (Finset.range n).filter (· ∉ order)
  have hleft : left.Nonempty := by
    by_contra hempty
    have hall : ∀ v < n, v ∈ order := fun v hv => by
      by_contra hnot
      exact hempty ⟨v, Finset.mem_filter.mpr ⟨Finset.mem_range.mpr hv, hnot⟩⟩
    have hrange : List.range n ⊆ order := fun v hv => hall v (List.mem_range.mp hv)
    have hlen := (List.subperm_of_subset List.nodup_range hrange).length_le
    rw [List.length_range] at hlen
    omega
  obtain ⟨v, hv, hfirst⟩ := hacyclic.exists_first hleft
  obtain ⟨hvn, hvnot⟩ := Finset.mem_filter.mp hv
  have hvn : v < n := Finset.mem_range.mp hvn
  apply hvnot
  rw [← List.append_nil order, ← h.zero_iff v hvn, h.degree_eq v hvn]
  unfold incoming
  apply List.sum_eq_zero
  intro c hc
  obtain ⟨u, hu, rfl⟩ := List.mem_map.mp hc
  obtain ⟨hun, hunot⟩ := List.mem_filter.mp hu
  have hun : u < n := List.mem_range.mp hun
  rw [List.count_eq_zero]
  intro hedge
  exact hfirst u (Finset.mem_filter.mpr ⟨Finset.mem_range.mpr hun, of_decide_eq_true hunot⟩) ⟨hun, hedge⟩

theorem acyclic (h : Frontier edges n degree ready order) (hlen : order.length = n)
    (hlt : ∀ u < n, ∀ v ∈ edges u, v < n) : Acyclic (Leads edges n) :=
  h.ordered.acyclic fun u v huv =>
    (h.perm_range hlen).mem_iff.mpr (List.mem_range.mpr (hlt u huv.1 v huv.2))

end Frontier

end

end Topological
