import Mathlib.Tactic

/-! Computations over a state that may fail, and rules for what they establish. A failure keeps the
state it was reached in, so that a rule says something of a run in which some calls fail. -/

namespace Effect

def Machine (σ ε α : Type) : Type := σ → Except ε α × σ

namespace Machine

section
variable {σ τ ε ε' ι α β : Type}

instance : Monad (Machine σ ε) where
  pure a := fun s => (.ok a, s)
  bind m f := fun s => match m s with
    | (.ok a, s') => f a s'
    | (.error e, s') => (.error e, s')

def fail (e : ε) : Machine σ ε α := fun s => (.error e, s)

def get : Machine σ ε σ := fun s => (.ok s, s)

def modify (f : σ → σ) : Machine σ ε Unit := fun s => (.ok (), f s)

def ofExcept (x : Except ε α) : Machine σ ε α := fun s => (x, s)

def attempt (m : Machine σ ε α) : Machine σ ε' (Except ε α) := fun s => (.ok (m s).1, (m s).2)

def onError (m : Machine σ ε α) (f : σ → σ) : Machine σ ε α := fun s => match m s with
  | (.ok a, s') => (.ok a, s')
  | (.error e, s') => (.error e, f s')

def focus (part : σ → τ) (put : τ → σ → σ) (m : Machine τ ε α) : Machine σ ε α := fun s =>
  ((m (part s)).1, put (m (part s)).2 s)

def forEach (f : ι → Machine σ ε Unit) : List ι → Machine σ ε Unit
  | [] => pure ()
  | i :: is => do
    f i
    forEach f is

/-- One call for each element, whether the earlier ones failed or not: the outcomes and the state. -/
def runAll (f : ι → Machine σ ε α) : List ι → σ → List (Except ε α) × σ
  | [], s => ([], s)
  | i :: is, s => ((f i s).1 :: (runAll f is (f i s).2).1, (runAll f is (f i s).2).2)

theorem bind_apply (m : Machine σ ε α) (f : α → Machine σ ε β) (s : σ) :
    (m >>= f) s = match m s with
      | (.ok a, s') => f a s'
      | (.error e, s') => (.error e, s') := rfl

theorem bind_of_ok {m : Machine σ ε α} {f : α → Machine σ ε β} {s s' : σ} {a : α}
    (h : m s = (.ok a, s')) : (m >>= f) s = f a s' := by rw [bind_apply, h]

theorem bind_of_error {m : Machine σ ε α} {f : α → Machine σ ε β} {s s' : σ} {e : ε}
    (h : m s = (.error e, s')) : (m >>= f) s = (.error e, s') := by rw [bind_apply, h]

theorem bind_eq_ok {m : Machine σ ε α} {f : α → Machine σ ε β} {s s'' : σ} {b : β} :
    (m >>= f) s = (.ok b, s'') ↔ ∃ a s', m s = (.ok a, s') ∧ f a s' = (.ok b, s'') := by
  rw [bind_apply]
  rcases m s with ⟨_ | a, s'⟩
  · constructor
    · intro h
      cases h
    · rintro ⟨_, _, h, _⟩
      cases h
  · constructor
    · exact fun h => ⟨a, s', rfl, h⟩
    · rintro ⟨_, _, h, h'⟩
      cases h
      exact h'

theorem onError_of_ok {m : Machine σ ε α} {f : σ → σ} {s s' : σ} {a : α} (h : m s = (.ok a, s')) :
    onError m f s = (.ok a, s') := by rw [onError, h]

theorem onError_of_error {m : Machine σ ε α} {f : σ → σ} {s s' : σ} {e : ε}
    (h : m s = (.error e, s')) : onError m f s = (.error e, f s') := by rw [onError, h]

theorem discard_state (m : Machine σ ε α) (s : σ) :
    ((m >>= fun _ => (pure () : Machine σ ε Unit)) s).2 = (m s).2 := by
  rw [bind_apply]
  rcases m s with ⟨e | a, s'⟩ <;> rfl

theorem runAll_append (f : ι → Machine σ ε α) (is js : List ι) (s : σ) :
    runAll f (is ++ js) s =
      ((runAll f is s).1 ++ (runAll f js (runAll f is s).2).1, (runAll f js (runAll f is s).2).2) := by
  induction is generalizing s with
  | nil => rfl
  | cons i is ih => rw [List.cons_append, runAll, ih, runAll, List.cons_append]

theorem runAll_length (f : ι → Machine σ ε α) (is : List ι) (s : σ) :
    (runAll f is s).1.length = is.length := by
  induction is generalizing s with
  | nil => rfl
  | cons i is ih => rw [runAll, List.length_cons, ih, List.length_cons]

/-- What an outcome has to satisfy: `Q` when there is a result, `E` when there is an error. -/
def Outcome (Q : α → σ → Prop) (E : ε → σ → Prop) : Except ε α × σ → Prop
  | (.ok a, s) => Q a s
  | (.error e, s) => E e s

/-- From every state in `P` the computation ends in an outcome of `Q` and `E`. -/
def Meets (P : σ → Prop) (m : Machine σ ε α) (Q : α → σ → Prop) (E : ε → σ → Prop) : Prop :=
  ∀ s, P s → Outcome Q E (m s)

variable {P P' : σ → Prop} {Q Q' : α → σ → Prop} {E E' : ε → σ → Prop}

theorem Meets.ok {m : Machine σ ε α} (h : Meets P m Q E) {s s' : σ} {a : α} (hs : P s)
    (hm : m s = (.ok a, s')) : Q a s' := by
  have hout := h s hs
  rw [hm] at hout
  exact hout

theorem Meets.error {m : Machine σ ε α} (h : Meets P m Q E) {s s' : σ} {e : ε} (hs : P s)
    (hm : m s = (.error e, s')) : E e s' := by
  have hout := h s hs
  rw [hm] at hout
  exact hout

theorem Meets.of_outcomes {m : Machine σ ε α}
    (hok : ∀ s a s', P s → m s = (.ok a, s') → Q a s')
    (herror : ∀ s e s', P s → m s = (.error e, s') → E e s') : Meets P m Q E := by
  intro s hs
  rcases hm : m s with ⟨e | a, s'⟩
  · exact herror s e s' hs hm
  · exact hok s a s' hs hm

theorem Meets.of_ok {m : Machine σ ε α} (hok : ∀ s a s', P s → m s = (.ok a, s') → Q a s') :
    Meets P m Q fun _ _ => True := .of_outcomes hok fun _ _ _ _ _ => trivial

theorem Outcome.mono {o : Except ε α × σ} (h : Outcome Q E o) (hQ : ∀ a s, Q a s → Q' a s)
    (hE : ∀ e s, E e s → E' e s) : Outcome Q' E' o := by
  rcases o with ⟨e | a, s⟩
  · exact hE e s h
  · exact hQ a s h

theorem Meets.mono {m : Machine σ ε α} (h : Meets P m Q E) (hP : ∀ s, P' s → P s)
    (hQ : ∀ a s, Q a s → Q' a s) (hE : ∀ e s, E e s → E' e s) : Meets P' m Q' E' :=
  fun s hs => (h s (hP s hs)).mono hQ hE

theorem Meets.pre {m : Machine σ ε α} (h : Meets P m Q E) (hP : ∀ s, P' s → P s) : Meets P' m Q E :=
  fun s hs => h s (hP s hs)

theorem Meets.post {m : Machine σ ε α} (h : Meets P m Q E) (hQ : ∀ a s, Q a s → Q' a s) :
    Meets P m Q' E := h.mono (fun _ hs => hs) hQ fun _ _ he => he

theorem Meets.pure {a : α} (h : ∀ s, P s → Q a s) : Meets P (Pure.pure a : Machine σ ε α) Q E := h

theorem Meets.fail {e : ε} (h : ∀ s, P s → E e s) : Meets P (fail e : Machine σ ε α) Q E := h

theorem Meets.get {Q : σ → σ → Prop} (h : ∀ s, P s → Q s s) :
    Meets P (Machine.get : Machine σ ε σ) Q E := h

theorem Meets.modify {Q : Unit → σ → Prop} {f : σ → σ} (h : ∀ s, P s → Q () (f s)) :
    Meets P (Machine.modify f : Machine σ ε Unit) Q E := h

theorem Meets.ofExcept {x : Except ε α} (hok : ∀ a s, x = .ok a → P s → Q a s)
    (herror : ∀ e s, x = .error e → P s → E e s) : Meets P (Machine.ofExcept x) Q E := by
  intro s hs
  cases x with
  | error e => exact herror e s rfl hs
  | ok a => exact hok a s rfl hs

theorem Meets.bind {m : Machine σ ε α} {f : α → Machine σ ε β} {R : β → σ → Prop}
    (hm : Meets P m Q E) (hf : ∀ a, Meets (Q a) (f a) R E) : Meets P (m >>= f) R E := by
  intro s hs
  have hout := hm s hs
  rw [bind_apply]
  rcases hm' : m s with ⟨e | a, s'⟩
  · rw [hm'] at hout
    exact hout
  · rw [hm'] at hout
    exact hf a s' hout

theorem Outcome.ite {c : Prop} [Decidable c] {m m' : Machine σ ε α} {s : σ}
    (h : c → Outcome Q E (m s)) (h' : ¬c → Outcome Q E (m' s)) :
    Outcome Q E ((if c then m else m') s) := by
  split
  · rename_i hc
    exact h hc
  · rename_i hc
    exact h' hc

theorem Meets.get_bind {f : σ → Machine σ ε α} (hf : ∀ s, P s → Outcome Q E (f s s)) :
    Meets P (Machine.get >>= f) Q E := hf

theorem Meets.and {m : Machine σ ε α} (h : Meets P m Q E) (h' : Meets P' m Q' E') :
    Meets (fun s => P s ∧ P' s) m (fun a s => Q a s ∧ Q' a s) (fun e s => E e s ∧ E' e s) := by
  rintro s ⟨hs, hs'⟩
  have hout := h s hs
  have hout' := h' s hs'
  rcases hm : m s with ⟨e | a, s'⟩
  · rw [hm] at hout hout'
    exact ⟨hout, hout'⟩
  · rw [hm] at hout hout'
    exact ⟨hout, hout'⟩

theorem Meets.exists {P : ι → σ → Prop} {m : Machine σ ε α} (h : ∀ i, Meets (P i) m Q E) :
    Meets (fun s => ∃ i, P i s) m Q E := fun s ⟨i, hs⟩ => h i s hs

theorem Meets.attempt {m : Machine σ ε α} {E'' : ε' → σ → Prop} (h : Meets P m Q E) :
    Meets P (Machine.attempt m : Machine σ ε' (Except ε α))
      (fun x s => Outcome Q E (x, s)) E'' := h

theorem Meets.onError {m : Machine σ ε α} {f : σ → σ} (h : Meets P m Q fun e s => E e (f s)) :
    Meets P (Machine.onError m f) Q E := by
  intro s hs
  have hout := h s hs
  unfold Machine.onError
  rcases hm : m s with ⟨e | a, s'⟩ <;> rw [hm] at hout <;> exact hout

theorem Meets.focus {part : σ → τ} {put : τ → σ → σ} {m : Machine τ ε α} {P : τ → Prop}
    {Q : α → τ → Prop} {E : ε → τ → Prop} {R : σ → Prop} {Q' : α → σ → Prop} {E' : ε → σ → Prop}
    (h : Meets P m Q E) (hP : ∀ s, R s → P (part s))
    (hQ : ∀ s a t, R s → Q a t → Q' a (put t s)) (hE : ∀ s e t, R s → E e t → E' e (put t s)) :
    Meets R (Machine.focus part put m) Q' E' := by
  intro s hs
  have hout := h (part s) (hP s hs)
  unfold Machine.focus
  rcases hm : m (part s) with ⟨e | a, t⟩
  · rw [hm] at hout
    exact hE s e t hs hout
  · rw [hm] at hout
    exact hQ s a t hs hout

/-- The invariant of a loop over a list, indexed by what is left of the list. -/
theorem Meets.forEach {f : ι → Machine σ ε Unit} {I : List ι → σ → Prop} :
    ∀ (is : List ι), (∀ i js, Meets (I (i :: js)) (f i) (fun _ => I js) E) →
      Meets (I is) (Machine.forEach f is) (fun _ => I []) E
  | [], _ => fun _ hs => hs
  | i :: is, h => Meets.bind (h i is) fun _ => Meets.forEach is h

/-- A part of the state that a computation leaves as it is, also when it fails. -/
def Keeps (part : σ → τ) (m : Machine σ ε α) : Prop := ∀ s, part (m s).2 = part s

variable {part : σ → τ}

theorem Keeps.pure (a : α) : Keeps part (Pure.pure a : Machine σ ε α) := fun _ => rfl

theorem Keeps.fail (e : ε) : Keeps part (Machine.fail e : Machine σ ε α) := fun _ => rfl

theorem Keeps.get : Keeps part (Machine.get : Machine σ ε σ) := fun _ => rfl

theorem Keeps.ofExcept (x : Except ε α) : Keeps part (Machine.ofExcept x : Machine σ ε α) :=
  fun _ => rfl

theorem Keeps.modify {f : σ → σ} (h : ∀ s, part (f s) = part s) :
    Keeps part (Machine.modify f : Machine σ ε Unit) := h

theorem Keeps.bind {m : Machine σ ε α} {f : α → Machine σ ε β} (hm : Keeps part m)
    (hf : ∀ a, Keeps part (f a)) : Keeps part (m >>= f) := by
  intro s
  have hs := hm s
  rw [bind_apply]
  rcases hm' : m s with ⟨e | a, s'⟩
  · rw [hm'] at hs
    exact hs
  · rw [hm'] at hs
    exact (hf a s').trans hs

theorem Keeps.forEach {f : ι → Machine σ ε Unit} (h : ∀ i, Keeps part (f i)) :
    ∀ is, Keeps part (Machine.forEach f is)
  | [] => Keeps.pure ()
  | i :: is => (h i).bind fun _ => Keeps.forEach h is

theorem Keeps.ok {m : Machine σ ε α} (h : Keeps part m) {s s' : σ} {a : α} (hm : m s = (.ok a, s')) :
    part s' = part s := by
  have hs := h s
  rwa [hm] at hs

theorem Keeps.error {m : Machine σ ε α} (h : Keeps part m) {s s' : σ} {e : ε} (hm : m s = (.error e, s')) :
    part s' = part s := by
  have hs := h s
  rwa [hm] at hs

theorem Keeps.onError {m : Machine σ ε α} {f : σ → σ} (hm : Keeps part m) (hf : ∀ s, part (f s) = part s) :
    Keeps part (Machine.onError m f) := by
  intro s
  rcases h : m s with ⟨e | a, s'⟩
  · rw [onError_of_error h, hf]
    exact hm.error h
  · rw [onError_of_ok h]
    exact hm.ok h

theorem Keeps.meets {m : Machine σ ε α} (h : Keeps part m) (C : τ → Prop) :
    Meets (fun s => C (part s)) m (fun _ s => C (part s)) fun _ s => C (part s) := by
  intro s hs
  have hkept := h s
  rcases hm : m s with ⟨e | a, s'⟩
  · rw [hm] at hkept
    exact (congrArg C hkept).mpr hs
  · rw [hm] at hkept
    exact (congrArg C hkept).mpr hs

/-- Where a computation ends, whether it fails or not, is related to where it began. -/
def Moves (R : σ → σ → Prop) (m : Machine σ ε α) : Prop := ∀ s, R s (m s).2

section
variable {R : σ → σ → Prop} [Std.Refl R] [IsTrans σ R]

omit [IsTrans σ R] in
theorem Moves.pure (a : α) : Moves R (Pure.pure a : Machine σ ε α) := fun s => Std.Refl.refl s

omit [IsTrans σ R] in
theorem Moves.fail (e : ε) : Moves R (Machine.fail e : Machine σ ε α) := fun s => Std.Refl.refl s

omit [IsTrans σ R] in
theorem Moves.get : Moves R (Machine.get : Machine σ ε σ) := fun s => Std.Refl.refl s

omit [IsTrans σ R] in
theorem Moves.ofExcept (x : Except ε α) : Moves R (Machine.ofExcept x : Machine σ ε α) :=
  fun s => Std.Refl.refl s

omit [Std.Refl R] [IsTrans σ R] in
theorem Moves.modify {f : σ → σ} (h : ∀ s, R s (f s)) :
    Moves R (Machine.modify f : Machine σ ε Unit) := h

omit [Std.Refl R] in
theorem Moves.bind {m : Machine σ ε α} {f : α → Machine σ ε β} (hm : Moves R m)
    (hf : ∀ a, Moves R (f a)) : Moves R (m >>= f) := by
  intro s
  have hs := hm s
  rw [bind_apply]
  rcases hm' : m s with ⟨e | a, s'⟩
  · rw [hm'] at hs
    exact hs
  · rw [hm'] at hs
    exact IsTrans.trans s s' _ hs (hf a s')

omit [Std.Refl R] [IsTrans σ R] in
theorem Moves.ite {c : Prop} [Decidable c] {m m' : Machine σ ε α} (h : Moves R m)
    (h' : Moves R m') : Moves R (if c then m else m') := by
  split
  · exact h
  · exact h'

omit [Std.Refl R] [IsTrans σ R] in
theorem Moves.ok {m : Machine σ ε α} (h : Moves R m) {s s' : σ} {a : α} (hm : m s = (.ok a, s')) :
    R s s' := by
  have hs := h s
  rwa [hm] at hs

omit [Std.Refl R] [IsTrans σ R] in
theorem Moves.error {m : Machine σ ε α} (h : Moves R m) {s s' : σ} {e : ε}
    (hm : m s = (.error e, s')) : R s s' := by
  have hs := h s
  rwa [hm] at hs

omit [Std.Refl R] [IsTrans σ R] in
theorem Moves.meets {m : Machine σ ε α} (h : Moves R m) {I : σ → Prop}
    (hI : ∀ s s', R s s' → I s → I s') : Meets I m (fun _ => I) fun _ => I :=
  .of_outcomes (fun s _ s' hs hm => hI s s' (h.ok hm) hs) fun s _ s' hs hm => hI s s' (h.error hm) hs

end

def Fails (F : ε → Prop) (m : Machine σ ε α) : Prop := ∀ s e s', m s = (.error e, s') → F e

section
variable {F : ε → Prop}

theorem Fails.pure (a : α) : Fails F (Pure.pure a : Machine σ ε α) := fun _ _ _ h => by cases h

theorem Fails.get : Fails F (Machine.get : Machine σ ε σ) := fun _ _ _ h => by cases h

theorem Fails.modify (f : σ → σ) : Fails F (Machine.modify f : Machine σ ε Unit) :=
  fun _ _ _ h => by cases h

theorem Fails.fail {e : ε} (he : F e) : Fails F (Machine.fail e : Machine σ ε α) := by
  intro s e' s' h
  cases h
  exact he

theorem Fails.ofExcept {x : Except ε α} (hx : ∀ e, x = .error e → F e) :
    Fails F (Machine.ofExcept x : Machine σ ε α) := fun _ e _ h => hx e (Prod.mk.inj h).1

theorem Fails.bind {m : Machine σ ε α} {f : α → Machine σ ε β} (hm : Fails F m)
    (hf : ∀ a, Fails F (f a)) : Fails F (m >>= f) := by
  intro s e s' h
  rw [bind_apply] at h
  rcases hm' : m s with ⟨e' | a, t⟩
  · rw [hm'] at h
    cases h
    exact hm s _ _ hm'
  · rw [hm'] at h
    exact hf a t e s' h

theorem Fails.ite {c : Prop} [Decidable c] {m m' : Machine σ ε α} (h : Fails F m) (h' : Fails F m') :
    Fails F (if c then m else m') := by
  split
  · exact h
  · exact h'

/-- A step that is known: what follows is only reached with its result. -/
theorem Fails.ofExcept_bind {x : Except ε α} {f : α → Machine σ ε β} (hx : ∀ e, x = .error e → F e)
    (hf : ∀ a, x = .ok a → Fails F (f a)) : Fails F (Machine.ofExcept x >>= f) := by
  intro s e s' h
  cases x with
  | error e' =>
    cases h
    exact hx e rfl
  | ok a => exact hf a rfl s e s' h

theorem Fails.forEach {f : ι → Machine σ ε Unit} (h : ∀ i, Fails F (f i)) :
    ∀ is, Fails F (Machine.forEach f is)
  | [] => Fails.pure ()
  | i :: is => (h i).bind fun _ => Fails.forEach h is

end

def Ignores (g : σ → σ) (m : Machine σ ε α) : Prop := ∀ s, m (g s) = ((m s).1, g (m s).2)

section
variable {g : σ → σ}

theorem Ignores.pure (a : α) : Ignores g (Pure.pure a : Machine σ ε α) := fun _ => rfl

theorem Ignores.fail (e : ε) : Ignores g (Machine.fail e : Machine σ ε α) := fun _ => rfl

theorem Ignores.ofExcept (x : Except ε α) : Ignores g (Machine.ofExcept x : Machine σ ε α) :=
  fun _ => rfl

theorem Ignores.bind {m : Machine σ ε α} {f : α → Machine σ ε β} (hm : Ignores g m)
    (hf : ∀ a, Ignores g (f a)) : Ignores g (m >>= f) := by
  intro s
  rw [bind_apply, bind_apply, hm s]
  rcases m s with ⟨e | a, t⟩
  · rfl
  · exact hf a t

theorem Ignores.forEach {f : ι → Machine σ ε Unit} (h : ∀ i, Ignores g (f i)) :
    ∀ is, Ignores g (Machine.forEach f is)
  | [] => Ignores.pure ()
  | i :: is => (h i).bind fun _ => Ignores.forEach h is

end

/-- Whatever states it starts in, a computation that goes well gives the same result. -/
def Determined (m : Machine σ ε α) : Prop :=
  ∀ s s' a a' t t', m s = (.ok a, t) → m s' = (.ok a', t') → a = a'

theorem Determined.pure (a : α) : Determined (Pure.pure a : Machine σ ε α) := by
  intro s s' b b' t t' h h'
  cases h
  cases h'
  rfl

theorem Determined.fail (e : ε) : Determined (Machine.fail e : Machine σ ε α) := fun _ _ _ _ _ _ h => by cases h

theorem Determined.ofExcept (x : Except ε α) : Determined (Machine.ofExcept x : Machine σ ε α) := by
  intro s s' a a' t t' h h'
  exact Except.ok.inj ((congrArg Prod.fst h).symm.trans (congrArg Prod.fst h'))

theorem Determined.unit (m : Machine σ ε Unit) : Determined m := fun _ _ _ _ _ _ _ _ => rfl

theorem Determined.bind {m : Machine σ ε α} {f : α → Machine σ ε β} (hm : Determined m)
    (hf : ∀ a s t, m s = (.ok a, t) → Determined (f a)) : Determined (m >>= f) := by
  intro s s' b b' t t' h h'
  obtain ⟨a, u, hrun, h⟩ := bind_eq_ok.mp h
  obtain ⟨a', u', hrun', h'⟩ := bind_eq_ok.mp h'
  obtain rfl := hm s s' a a' u u' hrun hrun'
  exact hf a s u hrun u u' b b' t t' h h'

/-- What every call preserves, whether it fails or not, a whole run preserves. -/
theorem runAll_preserves {f : ι → Machine σ ε α} {I : σ → Prop} (h : ∀ i s, I s → I (f i s).2)
    (is : List ι) {s : σ} (hs : I s) : I (runAll f is s).2 := by
  induction is generalizing s with
  | nil => exact hs
  | cons i is ih => exact ih (h i s hs)

end

end Machine

end Effect
