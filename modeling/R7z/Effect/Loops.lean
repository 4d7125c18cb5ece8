import R7z.Effect.Machine

/-! Computations with loops that may go on for ever. They are given a number of turns; when the turns run
out they have no outcome, and more turns never change one. -/

namespace Effect

structure Loops (σ ε α : Type) where
  run : ℕ → σ → Option (Except ε α × σ)
  succ : ∀ n s o, run n s = some o → run (n + 1) s = some o

namespace Loops

variable {σ τ ε ε' ι α β : Type}

theorem mono (m : Loops σ ε α) {n n' : ℕ} (hn : n ≤ n') {s : σ} {o : Except ε α × σ}
    (h : m.run n s = some o) : m.run n' s = some o := by
  induction hn with
  | refl => exact h
  | step _ ih => exact m.succ _ s o ih

/-- With enough turns this is the outcome. -/
def EndsIn (m : Loops σ ε α) (s : σ) (o : Except ε α × σ) : Prop := ∃ n, m.run n s = some o

theorem EndsIn.unique {m : Loops σ ε α} {s : σ} {o o' : Except ε α × σ} (h : m.EndsIn s o)
    (h' : m.EndsIn s o') : o = o' := by
  obtain ⟨n, hn⟩ := h
  obtain ⟨n', hn'⟩ := h'
  have hmax := m.mono (le_max_left n n') hn
  rw [m.mono (le_max_right n n') hn'] at hmax
  exact (Option.some.inj hmax).symm

def once (m : Machine σ ε α) : Loops σ ε α where
  run _ s := some (m s)
  succ _ _ _ h := h

theorem once_endsIn {m : Machine σ ε α} {s : σ} {o : Except ε α × σ} :
    (once m).EndsIn s o ↔ m s = o :=
  ⟨fun ⟨_, h⟩ => Option.some.inj h, fun h => ⟨0, congrArg some h⟩⟩

def fail (e : ε) : Loops σ ε α := once (Machine.fail e)

def next (f : α → σ → Option (Except ε β × σ)) : Except ε α × σ → Option (Except ε β × σ)
  | (.ok a, s) => f a s
  | (.error e, s) => some (.error e, s)

protected def bind (m : Loops σ ε α) (f : α → Loops σ ε β) : Loops σ ε β where
  run n s := (m.run n s).bind (next fun a => (f a).run n)
  succ n s o h := by
    obtain ⟨⟨x, s'⟩, hm, hnext⟩ := Option.bind_eq_some_iff.mp h
    refine Option.bind_eq_some_iff.mpr ⟨(x, s'), m.succ n s _ hm, ?_⟩
    cases x with
    | error e => exact hnext
    | ok a => exact (f a).succ n s' o hnext

instance : Monad (Loops σ ε) where
  pure a := once (Pure.pure a)
  bind := Loops.bind

theorem pure_endsIn {a : α} {s : σ} {o : Except ε α × σ} :
    (pure a : Loops σ ε α).EndsIn s o ↔ (.ok a, s) = o := once_endsIn

theorem fail_endsIn {e : ε} {s : σ} {o : Except ε α × σ} :
    (fail e : Loops σ ε α).EndsIn s o ↔ (.error e, s) = o := once_endsIn

theorem bind_of_ok {m : Loops σ ε α} {f : α → Loops σ ε β} {s s' : σ} {a : α} {o : Except ε β × σ}
    (hm : m.EndsIn s (.ok a, s')) (hf : (f a).EndsIn s' o) : (m >>= f).EndsIn s o := by
  obtain ⟨n, hn⟩ := hm
  obtain ⟨n', hn'⟩ := hf
  refine ⟨max n n', Option.bind_eq_some_iff.mpr ⟨_, m.mono (le_max_left n n') hn, ?_⟩⟩
  exact (f a).mono (le_max_right n n') hn'

theorem bind_of_error {m : Loops σ ε α} {f : α → Loops σ ε β} {s s' : σ} {e : ε}
    (hm : m.EndsIn s (.error e, s')) : (m >>= f).EndsIn s (.error e, s') := by
  obtain ⟨n, hn⟩ := hm
  exact ⟨n, Option.bind_eq_some_iff.mpr ⟨_, hn, rfl⟩⟩

theorem bind_endsIn {m : Loops σ ε α} {f : α → Loops σ ε β} {s : σ} {o : Except ε β × σ}
    (h : (m >>= f).EndsIn s o) :
    (∃ a s', m.EndsIn s (.ok a, s') ∧ (f a).EndsIn s' o) ∨
      ∃ e s', m.EndsIn s (.error e, s') ∧ (.error e, s') = o := by
  obtain ⟨n, hn⟩ := h
  obtain ⟨⟨x, s'⟩, hm, hnext⟩ := Option.bind_eq_some_iff.mp hn
  cases x with
  | error e => exact .inr ⟨e, s', ⟨n, hm⟩, Option.some.inj hnext⟩
  | ok a => exact .inl ⟨a, s', ⟨n, hm⟩, n, hnext⟩

theorem bind_ok {m : Loops σ ε α} {f : α → Loops σ ε β} {s s'' : σ} {b : β} :
    (m >>= f).EndsIn s (.ok b, s'') ↔
      ∃ a s', m.EndsIn s (.ok a, s') ∧ (f a).EndsIn s' (.ok b, s'') := by
  constructor
  · intro h
    rcases bind_endsIn h with h | ⟨e, s', -, ho⟩
    · exact h
    · cases ho
  · rintro ⟨a, s', hm, hf⟩
    exact bind_of_ok hm hf

theorem once_bind {m : Machine σ ε α} {f : α → Loops σ ε β} {s s' : σ} {a : α} {o : Except ε β × σ}
    (hm : m s = (.ok a, s')) : (once m >>= f).EndsIn s o ↔ (f a).EndsIn s' o := by
  refine ⟨fun h => ?_, bind_of_ok (once_endsIn.mpr hm)⟩
  rcases bind_endsIn h with ⟨_, _, hm', hf⟩ | ⟨_, _, hm', _⟩
  · cases hm.symm.trans (once_endsIn.mp hm')
    exact hf
  · cases hm.symm.trans (once_endsIn.mp hm')

theorem once_bind_error {m : Machine σ ε α} {f : α → Loops σ ε β} {s s' : σ} {e : ε}
    {o : Except ε β × σ} (hm : m s = (.error e, s')) :
    (once m >>= f).EndsIn s o ↔ (.error e, s') = o := by
  constructor
  · intro h
    rcases bind_endsIn h with ⟨_, _, hm', _⟩ | ⟨_, _, hm', ho⟩
    · cases hm.symm.trans (once_endsIn.mp hm')
    · cases hm.symm.trans (once_endsIn.mp hm')
      exact ho
  · rintro rfl
    exact bind_of_error (once_endsIn.mpr hm)

def mapError (f : ε → ε') (m : Loops σ ε α) : Loops σ ε' α where
  run n s := (m.run n s).map fun o => (o.1.mapError f, o.2)
  succ n s o h := by
    obtain ⟨o', hm, ho⟩ := Option.map_eq_some_iff.mp h
    exact Option.map_eq_some_iff.mpr ⟨o', m.succ n s o' hm, ho⟩

theorem mapError_endsIn {f : ε → ε'} {m : Loops σ ε α} {s s' : σ} {x : Except ε' α} :
    (mapError f m).EndsIn s (x, s') ↔ ∃ y, x = y.mapError f ∧ m.EndsIn s (y, s') := by
  constructor
  · rintro ⟨n, hn⟩
    obtain ⟨⟨y, t⟩, hm, ho⟩ := Option.map_eq_some_iff.mp hn
    cases ho
    exact ⟨y, rfl, n, hm⟩
  · rintro ⟨y, rfl, n, hm⟩
    exact ⟨n, Option.map_eq_some_iff.mpr ⟨_, hm, rfl⟩⟩

theorem mapError_ok {f : ε → ε'} {m : Loops σ ε α} {s s' : σ} {a : α} :
    (mapError f m).EndsIn s (.ok a, s') ↔ m.EndsIn s (.ok a, s') := by
  rw [mapError_endsIn]
  constructor
  · rintro ⟨y, hy, hm⟩
    cases y with
    | error e => cases hy
    | ok a' =>
      cases hy
      exact hm
  · exact fun hm => ⟨.ok a, rfl, hm⟩

def focus (part : σ → τ) (put : τ → σ → σ) (m : Loops τ ε α) : Loops σ ε α where
  run n s := (m.run n (part s)).map fun o => (o.1, put o.2 s)
  succ n s o h := by
    obtain ⟨o', hm, ho⟩ := Option.map_eq_some_iff.mp h
    exact Option.map_eq_some_iff.mpr ⟨o', m.succ n _ o' hm, ho⟩

theorem focus_endsIn {part : σ → τ} {put : τ → σ → σ} {m : Loops τ ε α} {s s' : σ} {x : Except ε α} :
    (focus part put m).EndsIn s (x, s') ↔ ∃ t, s' = put t s ∧ m.EndsIn (part s) (x, t) := by
  constructor
  · rintro ⟨n, hn⟩
    obtain ⟨⟨y, t⟩, hm, ho⟩ := Option.map_eq_some_iff.mp hn
    cases ho
    exact ⟨t, rfl, n, hm⟩
  · rintro ⟨t, rfl, n, hm⟩
    exact ⟨n, Option.map_eq_some_iff.mpr ⟨_, hm, rfl⟩⟩

def attempt (m : Loops σ ε α) : Loops σ ε' (Except ε α) where
  run n s := (m.run n s).map fun o => (.ok o.1, o.2)
  succ n s o h := by
    obtain ⟨o', hm, ho⟩ := Option.map_eq_some_iff.mp h
    exact Option.map_eq_some_iff.mpr ⟨o', m.succ n s o' hm, ho⟩

theorem attempt_endsIn {m : Loops σ ε α} {s s' : σ} {x : Except ε' (Except ε α)} :
    (attempt m).EndsIn s (x, s') ↔ ∃ y, x = .ok y ∧ m.EndsIn s (y, s') := by
  constructor
  · rintro ⟨n, hn⟩
    obtain ⟨⟨y, t⟩, hm, ho⟩ := Option.map_eq_some_iff.mp hn
    cases ho
    exact ⟨y, rfl, n, hm⟩
  · rintro ⟨y, rfl, n, hm⟩
    exact ⟨n, Option.map_eq_some_iff.mpr ⟨_, hm, rfl⟩⟩

/-- One call for each element, whether the earlier ones failed or not: the outcomes and the state. -/
inductive Runs (f : ι → Loops σ ε α) : List ι → σ → List (Except ε α) → σ → Prop where
  | nil (s : σ) : Runs f [] s [] s
  | cons {i : ι} {is : List ι} {s s' s'' : σ} {x : Except ε α} {xs : List (Except ε α)}
    (hcall : (f i).EndsIn s (x, s')) (hrest : Runs f is s' xs s'') : Runs f (i :: is) s (x :: xs) s''

theorem Runs.append {f : ι → Loops σ ε α} {is js : List ι} {s s' s'' : σ} {xs ys : List (Except ε α)}
    (h : Runs f is s xs s') (h' : Runs f js s' ys s'') : Runs f (is ++ js) s (xs ++ ys) s'' := by
  induction h with
  | nil => exact h'
  | cons hcall _ ih => exact .cons hcall (ih h')

theorem Runs.length_eq {f : ι → Loops σ ε α} {is : List ι} {s s' : σ} {xs : List (Except ε α)}
    (h : Runs f is s xs s') : xs.length = is.length := by
  induction h with
  | nil => rfl
  | cons _ _ ih => rw [List.length_cons, List.length_cons, ih]

def runs (f : ι → Loops σ ε α) (turns : ℕ) : List ι → σ → Option (List (Except ε α) × σ)
  | [], s => some ([], s)
  | i :: is, s =>
    ((f i).run turns s).bind fun called =>
      (runs f turns is called.2).map fun rest => (called.1 :: rest.1, rest.2)

theorem Runs.of_runs {f : ι → Loops σ ε α} (turns : ℕ) {is : List ι} {s s' : σ} {xs : List (Except ε α)}
    (h : runs f turns is s = some (xs, s')) : Runs f is s xs s' := by
  induction is generalizing s xs with
  | nil =>
    cases h
    exact .nil _
  | cons i is ih =>
    obtain ⟨⟨x, t⟩, hcall, h⟩ := Option.bind_eq_some_iff.mp h
    obtain ⟨⟨ys, t'⟩, hrest, h⟩ := Option.map_eq_some_iff.mp h
    cases h
    exact .cons ⟨turns, hcall⟩ (ih hrest)

def locally (t : τ) (m : Loops τ ε Unit) : Loops σ ε τ where
  run n s := (m.run n t).map fun o => (o.1.map fun _ => o.2, s)
  succ n s o h := by
    obtain ⟨o', hm, ho⟩ := Option.map_eq_some_iff.mp h
    exact Option.map_eq_some_iff.mpr ⟨o', m.succ n _ o' hm, ho⟩

theorem locally_ok {t t' : τ} {m : Loops τ ε Unit} {s s' : σ} :
    (locally t m).EndsIn s (.ok t', s') ↔ s' = s ∧ m.EndsIn t (.ok (), t') := by
  constructor
  · rintro ⟨n, hn⟩
    obtain ⟨⟨x, t''⟩, hm, ho⟩ := Option.map_eq_some_iff.mp hn
    cases x with
    | error e => cases ho
    | ok _ =>
      cases ho
      exact ⟨rfl, n, hm⟩
  · rintro ⟨rfl, n, hm⟩
    exact ⟨n, Option.map_eq_some_iff.mpr ⟨_, hm, rfl⟩⟩

/-! A loop takes turns until one of them has the result. -/

section
variable (turn : ι → Loops σ ε (ι ⊕ α))

def loopRun : ℕ → ι → σ → Option (Except ε α × σ)
  | 0, _, _ => none
  | n + 1, i, s => ((turn i).run n s).bind (next fun x s' => match x with
    | .inl j => loopRun n j s'
    | .inr a => some (.ok a, s'))

theorem loopRun_succ {turn : ι → Loops σ ε (ι ⊕ α)} : ∀ (n : ℕ) (i : ι) (s : σ) (o : Except ε α × σ),
    loopRun turn n i s = some o → loopRun turn (n + 1) i s = some o
  | 0, _, _, _, h => nomatch h
  | n + 1, i, s, o, h => by
    obtain ⟨⟨x, s'⟩, hturn, hnext⟩ := Option.bind_eq_some_iff.mp h
    refine Option.bind_eq_some_iff.mpr ⟨(x, s'), (turn i).succ n s _ hturn, ?_⟩
    cases x with
    | error e => exact hnext
    | ok x =>
      cases x with
      | inl j => exact loopRun_succ n j s' o hnext
      | inr a => exact hnext

def loop (i : ι) : Loops σ ε α where
  run n s := loopRun turn n i s
  succ n s o := loopRun_succ n i s o

end

variable {turn : ι → Loops σ ε (ι ⊕ α)}

/-- What every turn that goes on carries back, and every turn that ends establishes, holds of every
outcome of the loop. -/
theorem loop_induction {P : ι → σ → Except ε α × σ → Prop}
    (hdone : ∀ i s a s', (turn i).EndsIn s (.ok (.inr a), s') → P i s (.ok a, s'))
    (herror : ∀ i s e s', (turn i).EndsIn s (.error e, s') → P i s (.error e, s'))
    (hturn : ∀ i s j s' o, (turn i).EndsIn s (.ok (.inl j), s') → (loop turn j).EndsIn s' o →
      P j s' o → P i s o)
    {i : ι} {s : σ} {o : Except ε α × σ} (h : (loop turn i).EndsIn s o) : P i s o := by
  obtain ⟨n, hn⟩ := h
  change loopRun turn n i s = some o at hn
  induction n generalizing i s with
  | zero => cases hn
  | succ n ih =>
    obtain ⟨⟨x, s'⟩, hrun, hnext⟩ := Option.bind_eq_some_iff.mp hn
    cases x with
    | error e =>
      cases hnext
      exact herror i s e s' ⟨n, hrun⟩
    | ok x =>
      cases x with
      | inl j => exact hturn i s j s' o ⟨n, hrun⟩ ⟨n, hnext⟩ (ih hnext)
      | inr a =>
        cases hnext
        exact hdone i s a s' ⟨n, hrun⟩

theorem loop_done {i : ι} {s s' : σ} {a : α} (h : (turn i).EndsIn s (.ok (.inr a), s')) :
    (loop turn i).EndsIn s (.ok a, s') := by
  obtain ⟨n, hn⟩ := h
  exact ⟨n + 1, Option.bind_eq_some_iff.mpr ⟨_, hn, rfl⟩⟩

theorem loop_error {i : ι} {s s' : σ} {e : ε} (h : (turn i).EndsIn s (.error e, s')) :
    (loop turn i).EndsIn s (.error e, s') := by
  obtain ⟨n, hn⟩ := h
  exact ⟨n + 1, Option.bind_eq_some_iff.mpr ⟨_, hn, rfl⟩⟩

theorem loop_turn {i j : ι} {s s' : σ} {o : Except ε α × σ} (h : (turn i).EndsIn s (.ok (.inl j), s')) :
    (loop turn i).EndsIn s o ↔ (loop turn j).EndsIn s' o := by
  constructor
  · rintro ⟨n, hn⟩
    cases n with
    | zero => cases hn
    | succ n =>
      obtain ⟨⟨x, t⟩, hrun, hnext⟩ := Option.bind_eq_some_iff.mp hn
      cases EndsIn.unique h ⟨n, hrun⟩
      exact ⟨n, hnext⟩
  · rintro ⟨n, hn⟩
    obtain ⟨n', hn'⟩ := h
    refine ⟨max n n' + 1, Option.bind_eq_some_iff.mpr ⟨_, (turn i).mono (le_max_right n n') hn', ?_⟩⟩
    exact (loop turn j).mono (le_max_left n n') hn

/-! The same computation with more state -/

def Projects (part : σ → τ) (I : σ → Prop) (m : Loops σ ε α) (m' : Loops τ ε α) : Prop :=
  ∀ n s, I s → (m.run n s).map (Prod.map id part) = m'.run n (part s) ∧
    ∀ o, m.run n s = some o → I o.2

section
variable {part : σ → τ} {I : σ → Prop}

theorem Projects.endsIn {m : Loops σ ε α} {m' : Loops τ ε α} (h : Projects part I m m') {s : σ}
    (hs : I s) {x : Except ε α} {t : τ} :
    m'.EndsIn (part s) (x, t) ↔ ∃ s', part s' = t ∧ m.EndsIn s (x, s') := by
  constructor
  · rintro ⟨n, hn⟩
    rw [← (h n s hs).1] at hn
    obtain ⟨⟨y, s'⟩, hm, ho⟩ := Option.map_eq_some_iff.mp hn
    cases ho
    exact ⟨s', rfl, n, hm⟩
  · rintro ⟨s', rfl, n, hn⟩
    refine ⟨n, ?_⟩
    rw [← (h n s hs).1, hn]
    rfl

theorem Projects.once {m : Machine σ ε α} {m' : Machine τ ε α}
    (h : ∀ s, I s → Prod.map id part (m s) = m' (part s) ∧ I (m s).2) :
    Projects part I (once m) (once m') := by
  intro n s hs
  obtain ⟨hm, hI⟩ := h s hs
  refine ⟨congrArg some hm, ?_⟩
  rintro o ho
  cases ho
  exact hI

theorem Projects.pure (a : α) : Projects part I (Pure.pure a : Loops σ ε α) (Pure.pure a) :=
  Projects.once fun _ hs => ⟨rfl, hs⟩

theorem Projects.ofExcept (x : Except ε α) :
    Projects part I (Loops.once (Machine.ofExcept x)) (Loops.once (Machine.ofExcept x)) :=
  Projects.once fun _ hs => ⟨rfl, hs⟩

theorem Projects.bind {m : Loops σ ε α} {m' : Loops τ ε α} {f : α → Loops σ ε β} {f' : α → Loops τ ε β}
    (hm : Projects part I m m') (hf : ∀ a, Projects part I (f a) (f' a)) :
    Projects part I (m >>= f) (m' >>= f') := by
  intro n s hs
  obtain ⟨hrun, hkept⟩ := hm n s hs
  change ((m.run n s).bind _).map _ = (m'.run n (part s)).bind _ ∧
    ∀ o, (m.run n s).bind _ = some o → _
  rw [← hrun]
  rcases hm' : m.run n s with _ | ⟨e | a, s'⟩
  · exact ⟨rfl, fun _ h => nomatch h⟩
  · refine ⟨rfl, ?_⟩
    rintro o ho
    cases ho
    exact hkept _ hm'
  · exact hf a n s' (hkept _ hm')

theorem Projects.focus {put : τ → σ → σ} {m : Loops τ ε α} (hpart : ∀ s t, part (put t s) = t)
    (hI : ∀ s t, I s → I (put t s)) : Projects part I (focus part put m) m := by
  intro n s hs
  change ((m.run n (part s)).map _).map _ = _ ∧ ∀ o, (m.run n (part s)).map _ = some o → _
  rcases hm : m.run n (part s) with _ | o
  · exact ⟨rfl, fun _ h => nomatch h⟩
  · refine ⟨congrArg some (Prod.ext rfl (hpart s o.2)), ?_⟩
    rintro o' ho
    cases ho
    exact hI s o.2 hs

theorem Projects.loop {turn' : ι → Loops τ ε (ι ⊕ α)} (h : ∀ i, Projects part I (turn i) (turn' i))
    (i : ι) : Projects part I (loop turn i) (loop turn' i) := by
  intro n
  change ∀ s, I s → (loopRun turn n i s).map _ = loopRun turn' n i (part s) ∧
    ∀ o, loopRun turn n i s = some o → _
  induction n generalizing i with
  | zero => exact fun s _ => ⟨rfl, fun _ h => nomatch h⟩
  | succ n ih =>
    intro s hs
    obtain ⟨hrun, hkept⟩ := h i n s hs
    rw [loopRun, loopRun, ← hrun]
    rcases hturn : (turn i).run n s with _ | ⟨e | j | a, s'⟩
    · exact ⟨rfl, fun _ h => nomatch h⟩
    · refine ⟨rfl, ?_⟩
      rintro o ho
      cases ho
      exact hkept _ hturn
    · exact ih j s' (hkept _ hturn)
    · refine ⟨rfl, ?_⟩
      rintro o ho
      cases ho
      exact hkept _ hturn

end

end Loops

end Effect
