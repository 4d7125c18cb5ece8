import R7z.Effect.Loops

/-! Writers: given some items they take a front of them, or fail and can be given them again. -/

namespace Effect

/-- A writer, by how many of the items it takes. -/
abbrev Writer (σ ε β : Type) := (items : List β) → Machine σ ε { n : ℕ // n ≤ items.length }

/-- What is told apart among the errors of a writer: after an interruption it is given the same again, and
to take nothing at all is an error. -/
structure WriteErrors (ε : Type) where
  interrupted : ε → Bool
  writeZero : ε

namespace Writer

open Machine

variable {σ ε β : Type}

def full : Writer σ ε β := fun items s => (.ok ⟨items.length, Nat.le_refl _⟩, s)

section
variable (w : Writer σ ε β) (errors : WriteErrors ε)

def writeTurn (items : List β) : Machine σ ε (List β ⊕ Unit) :=
  if items.isEmpty then pure (.inr ())
  else do
    match ← (attempt (w items) : Machine σ ε _) with
    | .ok n => if n.val = 0 then fail errors.writeZero else pure (.inl (items.drop n.val))
    | .error e => if errors.interrupted e then pure (.inl items) else fail e

def writeAll (items : List β) : Loops σ ε Unit := Loops.loop (fun items => Loops.once (w.writeTurn errors items)) items

def logged : Writer (σ × List β) ε β := fun items s =>
  match w items s.1 with
  | (.ok n, s') => (.ok n, (s', s.2 ++ items.take n.val))
  | (.error e, s') => (.error e, (s', s.2))

end

def Extends (w : Writer σ ε β) (R : List β → σ → Prop) : Prop := ∀ done items s, R done s →
  Outcome (fun n s' => R (done ++ items.take n.val) s') (fun _ s' => R done s') (w items s)

def Logs (w : Writer σ ε β) (log : σ → List β) : Prop := ∀ items s,
  Outcome (fun n s' => log s' = log s ++ items.take n) (fun _ s' => log s' = log s) (w items s)

variable {w : Writer σ ε β} {errors : WriteErrors ε} {R : List β → σ → Prop} {log : σ → List β}

theorem logged_logs (w : Writer σ ε β) : w.logged.Logs Prod.snd := by
  intro items s
  unfold logged
  rcases w items s.1 with ⟨e | n, s'⟩ <;> rfl

theorem Logs.extends (h : w.Logs log) : w.Extends fun done s => log s = done := by
  rintro done items s rfl
  exact h items s

theorem Extends.writeTurn (h : w.Extends R) {done : List β} (items : List β) {s : σ} (hs : R done s) :
    Outcome
      (fun x s' => match x with
        | .inl left => ∃ taken, items = taken ++ left ∧ R (done ++ taken) s'
        | .inr () => items = [] ∧ R done s')
      (fun _ s' => items ≠ [] ∧ R done s') (w.writeTurn errors items s) := by
  unfold Writer.writeTurn
  cases items with
  | nil => exact ⟨rfl, hs⟩
  | cons item items =>
    have hout := h done (item :: items) s hs
    rw [if_neg (by simp), bind_apply, attempt]
    rcases hw : w (item :: items) s with ⟨e | n, s'⟩
    · rw [hw] at hout
      dsimp only
      split
      · refine ⟨[], rfl, ?_⟩
        rw [List.append_nil]
        exact hout
      · exact ⟨List.cons_ne_nil _ _, hout⟩
    · rw [hw] at hout
      dsimp only
      split
      · next hzero =>
        refine ⟨List.cons_ne_nil _ _, ?_⟩
        change R (done ++ List.take n.val (item :: items)) s' at hout
        rwa [hzero, List.take_zero, List.append_nil] at hout
      · exact ⟨_, (List.take_append_drop n.val _).symm, hout⟩

/-- Everything is taken in order, or a front of it and something is left. -/
theorem Extends.writeAll (h : w.Extends R) {done items : List β} {s : σ} (hs : R done s)
    {o : Except ε Unit × σ} (hend : (w.writeAll errors items).EndsIn s o) :
    ∃ taken left, items = taken ++ left ∧ R (done ++ taken) o.2 ∧ (o.1 = .ok () ↔ left = []) := by
  refine Loops.loop_induction (P := fun items s o => ∀ done, R done s → ∃ taken left,
    items = taken ++ left ∧ R (done ++ taken) o.2 ∧ (o.1 = .ok () ↔ left = [])) ?_ ?_ ?_ hend done hs
  · intro items s a s' hturn done hs
    have hout : Outcome _ _ (w.writeTurn errors items s) := h.writeTurn items hs
    rw [Loops.once_endsIn.mp hturn] at hout
    obtain ⟨hnil, hdone⟩ := hout
    rw [← List.append_nil done] at hdone
    exact ⟨[], [], hnil, hdone, fun _ => rfl, fun _ => rfl⟩
  · intro items s e s' hturn done hs
    have hout : Outcome _ _ (w.writeTurn errors items s) := h.writeTurn items hs
    rw [Loops.once_endsIn.mp hturn] at hout
    obtain ⟨hne, hdone⟩ := hout
    rw [← List.append_nil done] at hdone
    exact ⟨[], items, rfl, hdone, fun he => (nomatch he), fun hnil => absurd hnil hne⟩
  · intro items s left s' o hturn _ ih done hs
    have hout : Outcome _ _ (w.writeTurn errors items s) := h.writeTurn items hs
    rw [Loops.once_endsIn.mp hturn] at hout
    obtain ⟨before, rfl, hbefore⟩ := hout
    obtain ⟨taken, left', rfl, hdone, hok⟩ := ih _ hbefore
    rw [List.append_assoc] at hdone
    exact ⟨before ++ taken, left', (List.append_assoc _ _ _).symm, hdone, hok⟩

theorem Extends.writeAll_ok (h : w.Extends R) {done items : List β} {s s' : σ} (hs : R done s)
    (hend : (w.writeAll errors items).EndsIn s (.ok (), s')) : R (done ++ items) s' := by
  obtain ⟨taken, left, rfl, hdone, hok⟩ := h.writeAll hs hend
  rw [hok.mp rfl, List.append_nil]
  exact hdone

theorem Logs.writeAll (h : w.Logs log) {items : List β} {s : σ} {o : Except ε Unit × σ}
    (hend : (w.writeAll errors items).EndsIn s o) :
    ∃ taken left, items = taken ++ left ∧ log o.2 = log s ++ taken ∧ (o.1 = .ok () ↔ left = []) :=
  h.extends.writeAll rfl hend

theorem Logs.writeAll_ok (h : w.Logs log) {items : List β} {s s' : σ}
    (hend : (w.writeAll errors items).EndsIn s (.ok (), s')) : log s' = log s ++ items :=
  h.extends.writeAll_ok rfl hend

theorem writeAll_whole {items : List β} {s s' : σ} (hnil : items = [] → s' = s)
    (hwrite : items ≠ [] → w items s = (.ok ⟨items.length, Nat.le_refl _⟩, s')) :
    (w.writeAll errors items).EndsIn s (.ok (), s') := by
  by_cases hempty : items = []
  · rw [hnil hempty, hempty]
    exact Loops.loop_done (Loops.once_endsIn.mpr rfl)
  · have hturn : w.writeTurn errors items s = (.ok (.inl []), s') := by
      rw [Writer.writeTurn, if_neg (by simpa using hempty), bind_apply, attempt, hwrite hempty]
      dsimp only
      rw [if_neg (by simpa using hempty), List.drop_length]
      rfl
    rw [Writer.writeAll, Loops.loop_turn (Loops.once_endsIn.mpr hturn)]
    exact Loops.loop_done (Loops.once_endsIn.mpr rfl)

theorem writeAll_keeps {τ : Type} (part : σ → τ) (h : ∀ items, Keeps part (w items)) {items : List β}
    {s : σ} {o : Except ε Unit × σ} (hend : (w.writeAll errors items).EndsIn s o) : part o.2 = part s := by
  have hturn (items : List β) : Keeps part (w.writeTurn errors items) := by
    unfold writeTurn
    split
    · exact Keeps.pure _
    · refine Keeps.bind (h items) fun x => ?_
      cases x with
      | error e =>
        dsimp only
        split
        · exact Keeps.pure _
        · exact Keeps.fail _
      | ok n =>
        dsimp only
        split
        · exact Keeps.fail _
        · exact Keeps.pure _
  refine Loops.loop_induction (P := fun _ s o => part o.2 = part s) ?_ ?_ ?_ hend
  · exact fun items s _ s' hrun => (hturn items).ok (Loops.once_endsIn.mp hrun)
  · intro items s e s' hrun
    have hkept := hturn items s
    rwa [Loops.once_endsIn.mp hrun] at hkept
  · exact fun items s _ s' _ hrun _ ih => ih.trans ((hturn items).ok (Loops.once_endsIn.mp hrun))

end Writer

end Effect
