import R7z.Effect.Machine

/-! Readers: asked for at most so many items, they hand over some, or fail and can be asked again. -/

namespace Effect

/-- A reader, given the room there is for what it reads. -/
abbrev Reader (σ ε β : Type) := ℕ → Machine σ ε (List β)

namespace Reader

open Machine

variable {σ ε β : Type}

/-- An answer hands over the front of what is left, leaving the rest of it to be read; nothing at all is
only answered when nothing is left or there is no room. -/
def Gives (R : σ → List β → Prop) (n : ℕ) (left items : List β) (s : σ) : Prop :=
  items.length ≤ n ∧ (items = [] → 0 < n → left = []) ∧ ∃ rest, left = items ++ rest ∧ R s rest

/-- The reader hands over what `R` says is left, in order and without loss; an error leaves all of it to
be read. -/
def Serves (r : Reader σ ε β) (R : σ → List β → Prop) : Prop :=
  ∀ n left, Meets (fun s => R s left) (r n) (Gives R n left) fun _ s => R s left

/-- The same of a reader that never fails. -/
def Provides (r : Reader σ ε β) (R : σ → List β → Prop) : Prop :=
  ∀ n left, Meets (fun s => R s left) (r n) (Gives R n left) fun _ _ => False

def delivered (outcomes : List (Except ε (List β))) : List β :=
  outcomes.flatMap fun outcome => match outcome with
    | .ok items => items
    | .error _ => []

theorem delivered_ok (items : List β) (outcomes : List (Except ε (List β))) :
    delivered (.ok items :: outcomes) = items ++ delivered outcomes := rfl

theorem delivered_append (first more : List (Except ε (List β))) :
    delivered (first ++ more) = delivered first ++ delivered more := List.flatMap_append

variable {r : Reader σ ε β} {R : σ → List β → Prop} {s : σ} {left : List β}

theorem Serves.run (h : Serves r R) (sizes : List ℕ) (hs : R s left) :
    ∃ rest, left = delivered (runAll r sizes s).1 ++ rest ∧ R (runAll r sizes s).2 rest := by
  induction sizes generalizing s left with
  | nil => exact ⟨left, rfl, hs⟩
  | cons n sizes ih =>
    rw [runAll]
    rcases hread : r n s with ⟨e | items, s'⟩
    · exact ih ((h n left).error hs hread)
    · obtain ⟨-, -, rest, hleft, hrest⟩ := (h n left).ok hs hread
      obtain ⟨rest', hrest', hlast⟩ := ih hrest
      refine ⟨rest', ?_, hlast⟩
      rw [delivered_ok, List.append_assoc, ← hrest', hleft]

theorem Serves.run_prefix (h : Serves r R) (sizes : List ℕ) (hs : R s left) :
    delivered (runAll r sizes s).1 <+: left := by
  obtain ⟨rest, hleft, -⟩ := h.run sizes hs
  exact ⟨rest, hleft.symm⟩

/-- When the end is reported, everything has been handed over. -/
theorem Serves.run_end (h : Serves r R) (sizes : List ℕ) (hs : R s left) {n : ℕ} (hn : 0 < n)
    {s' : σ} (hend : r n (runAll r sizes s).2 = (.ok [], s')) :
    delivered (runAll r sizes s).1 = left := by
  obtain ⟨rest, hleft, hrest⟩ := h.run sizes hs
  have hempty : rest = [] := ((h n rest).ok hrest hend).2.1 rfl hn
  rw [hleft, hempty, List.append_nil]

theorem Serves.run_nothing (h : Serves r R) (sizes : List ℕ) (hs : R s []) :
    delivered (runAll r sizes s).1 = [] := List.prefix_nil.mp (h.run_prefix sizes hs)

theorem Serves.run_complete (h : Serves r R) (sizes : List ℕ) (hs : R s left)
    (hroom : ∀ n ∈ sizes, 0 < n) (hok : ∀ o ∈ (runAll r sizes s).1, ∃ items, o = .ok items)
    (hlong : left.length ≤ sizes.length) : delivered (runAll r sizes s).1 = left := by
  induction sizes generalizing s left with
  | nil => exact (List.length_eq_zero_iff.mp (Nat.le_zero.mp hlong)).symm
  | cons n sizes ih =>
    rw [runAll] at hok ⊢
    obtain ⟨⟨items, hitems⟩, hmore⟩ := List.forall_mem_cons.mp hok
    obtain ⟨hn, hroom⟩ := List.forall_mem_cons.mp hroom
    rcases hread : r n s with ⟨o, s'⟩
    rw [hread] at hitems hmore
    change o = _ at hitems
    subst hitems
    obtain ⟨-, hempty, rest, hleft, hrest⟩ := (h n left).ok hs hread
    rw [delivered_ok]
    by_cases hnil : items = []
    · have hleft' := hempty hnil hn
      rw [hleft', eq_comm, List.append_eq_nil_iff] at hleft
      rw [hleft.1, hleft', h.run_nothing sizes (hleft.2 ▸ hrest)]
      rfl
    · have hpos := List.length_pos_iff.mpr hnil
      rw [hleft, List.length_append, List.length_cons] at hlong
      rw [ih hrest hroom hmore (by omega), hleft]

theorem Provides.serves (h : Provides r R) : Serves r R := fun n left =>
  (h n left).mono (fun _ hs => hs) (fun _ _ hgives => hgives) fun _ _ hfalse => hfalse.elim

theorem Provides.run_ok (h : Provides r R) (sizes : List ℕ) (hs : R s left) :
    ∀ o ∈ (runAll r sizes s).1, ∃ items, o = .ok items := by
  induction sizes generalizing s left with
  | nil => exact fun o ho => absurd ho List.not_mem_nil
  | cons n sizes ih =>
    rcases hread : r n s with ⟨e | items, s'⟩
    · exact ((h n left).error hs hread).elim
    · obtain ⟨-, -, rest, -, hrest⟩ := (h n left).ok hs hread
      rw [runAll, hread]
      exact List.forall_mem_cons.mpr ⟨⟨items, rfl⟩, ih hrest⟩

/-- A reader that hands something over, or fails, whenever there is room, fails sooner or later, and has
not reported an end before. -/
theorem run_fails (h : ∀ n left, 0 < n → Meets (fun s => R s left) (r n)
      (fun items s => Gives R n left items s ∧ items ≠ []) fun _ _ => True)
    (sizes : List ℕ) (hs : R s left) (hroom : ∀ n ∈ sizes, 0 < n) (hlong : left.length < sizes.length) :
    ∃ before e after, (runAll r sizes s).1 = before ++ .error e :: after ∧
      ∀ o ∈ before, ∃ items, o = .ok items ∧ items ≠ [] := by
  induction sizes generalizing s left with
  | nil => exact absurd hlong (Nat.not_lt_zero _)
  | cons n sizes ih =>
    obtain ⟨hn, hroom⟩ := List.forall_mem_cons.mp hroom
    rcases hread : r n s with ⟨e | items, s'⟩
    · refine ⟨[], e, (runAll r sizes s').1, ?_, fun o ho => absurd ho List.not_mem_nil⟩
      rw [runAll, hread]
      rfl
    · obtain ⟨⟨-, -, rest, hleft, hrest⟩, hsome⟩ := (h n left hn).ok hs hread
      have hpos := List.length_pos_iff.mpr hsome
      rw [hleft, List.length_append, List.length_cons] at hlong
      obtain ⟨before, e, after, hrun, hbefore⟩ := ih hrest hroom (by omega)
      refine ⟨.ok items :: before, e, after, ?_, List.forall_mem_cons.mpr ⟨⟨items, rfl, hsome⟩, hbefore⟩⟩
      rw [runAll, hread, hrun]
      rfl

/-- A source that holds `items` and behaves as told: the next answer is an error, or at most so many
items and at least one when there is one; when nothing more is told it hands over what fits. -/
structure Scripted (ε β : Type) where
  items : List β
  script : List (Except ε ℕ)

def Scripted.read : Reader (Scripted ε β) ε β := fun n source =>
  match source.script with
  | [] => (.ok (source.items.take n), { source with items := source.items.drop n })
  | .error e :: script => (.error e, { source with script := script })
  | .ok k :: script => (.ok (source.items.take (min (k + 1) n)),
    { items := source.items.drop (min (k + 1) n), script := script })

theorem gives_take {R : σ → List β → Prop} {s : σ} (items : List β) {k n : ℕ} (hk : 0 < n → 0 < k)
    (hkn : k ≤ n) (hs : R s (items.drop k)) : Gives R n items (items.take k) s := by
  refine ⟨(List.length_take_le k items).trans hkn, fun hempty hn => ?_,
    items.drop k, (List.take_append_drop k items).symm, hs⟩
  rcases List.take_eq_nil_iff.mp hempty with h | h
  · exact absurd h (hk hn).ne'
  · exact h

theorem Scripted.serves :
    Serves (Scripted.read : Reader (Scripted ε β) ε β) fun source left => source.items = left := by
  rintro n left ⟨items, _ | ⟨e | k, script⟩⟩ rfl
  · exact gives_take items id le_rfl rfl
  · exact rfl
  · exact gives_take items (fun hn => lt_min k.succ_pos hn) (min_le_right _ _) rfl

/-- There are no errors in its script. -/
def Scripted.Steady (source : Scripted ε β) (left : List β) : Prop :=
  source.items = left ∧ ∀ e, .error e ∉ source.script

theorem Scripted.provides : Provides (Scripted.read : Reader (Scripted ε β) ε β) Scripted.Steady := by
  rintro n left ⟨items, _ | ⟨e | k, script⟩⟩ ⟨rfl, hscript⟩
  · exact gives_take (R := Scripted.Steady) items id le_rfl ⟨rfl, hscript⟩
  · exact hscript e List.mem_cons_self
  · exact gives_take (R := Scripted.Steady) items (fun hn => lt_min k.succ_pos hn) (min_le_right _ _)
      ⟨rfl, fun e he => hscript e (List.mem_cons_of_mem _ he)⟩

end Reader

section
variable {σ ε β α : Type}

/-- A reader that hands over no more than there is room for. -/
abbrev BoundedReader (σ ε β : Type) := (n : ℕ) → Machine σ ε { items : List β // items.length ≤ n }

def BoundedReader.plain (r : BoundedReader σ ε β) : Reader σ ε β := fun n s =>
  ((r n s).1.map Subtype.val, (r n s).2)

/-- A computation that reads from below: it asks and goes on with the answer, until it has a result. -/
inductive Asks (ε β α : Type) where
  | done (result : α)
  | ask (n : ℕ) (next : Except ε { items : List β // items.length ≤ n } → Asks ε β α)

namespace Asks

def run (r : BoundedReader σ ε β) : Asks ε β α → σ → α × σ
  | .done result, s => (result, s)
  | .ask n next, s => run r (next (r n s).1) (r n s).2

theorem run_preserves {r : BoundedReader σ ε β} {I : σ → Prop} (h : ∀ n s, I s → I (r n s).2)
    (asks : Asks ε β α) {s : σ} (hs : I s) : I (asks.run r s).2 := by
  induction asks generalizing s with
  | done result => exact hs
  | ask n next ih => exact ih _ (h n s hs)

end Asks

end

end Effect
