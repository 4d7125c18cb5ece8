import R7z.Wire.Parser

/-! Loops that read until they meet an end marker. Every turn of such a loop reads a byte, so the
bound by the input length is never what stops it: more fuel does not change an answer, and a loop
reads, scans and agrees turn by turn. -/

namespace Wire

open Wire.Parser

section
variable {ε ε' α β γ δ σ σ' τ τ' : Type} {W : Window}

theorem loopFuel_mono {eof : ε} {step : σ → Parser ε (Turn σ τ)} :
    ∀ {n m : ℕ} {acc : σ} {s r : Slice} {v : τ}, n ≤ m →
      loopFuel eof step n acc s = .ok (v, r) → loopFuel eof step m acc s = .ok (v, r)
  | 0, _, _, _, _, _, _, h => by cases h
  | n + 1, m, acc, s, r, v, hm, h => by
    obtain ⟨k, rfl⟩ : ∃ k, m = k + 1 := ⟨m - 1, by omega⟩
    obtain ⟨turn, t, h1, h2⟩ := bind_eq_ok.mp h
    refine bind_eq_ok.mpr ⟨turn, t, h1, ?_⟩
    cases turn with
    | again acc => exact loopFuel_mono (by omega) h2
    | done v => exact h2

theorem loopFuel_turn {eof : ε} {step : σ → Parser ε (Turn σ τ)} {n : ℕ} {acc : σ} {s : Slice}
    {v : τ × Slice} (h : loopFuel eof step n acc s = .ok v) : ∃ turn t, step acc s = .ok (turn, t) ∧
      ∀ acc', turn = .again acc' → ∃ m, loopFuel eof step m acc' t = .ok v := by
  cases n with
  | zero => cases h
  | succ n =>
    obtain ⟨turn, t, h1, h2⟩ := bind_eq_ok.mp h
    refine ⟨turn, t, h1, ?_⟩
    rintro acc' rfl
    exact ⟨n, h2⟩

theorem loopFuel_again {eof : ε} {step : σ → Parser ε (Turn σ τ)} {n : ℕ} {acc acc' : σ} {s t : Slice}
    {v : τ × Slice} (h : loopFuel eof step n acc s = .ok v) (hstep : step acc s = .ok (.again acc', t)) :
    ∃ m, loopFuel eof step m acc' t = .ok v := by
  obtain ⟨turn, t', h1, h2⟩ := loopFuel_turn h
  rw [hstep] at h1
  cases h1
  exact h2 acc' rfl

theorem Reads.loop_again {eof : ε} {step : σ → Parser ε (Turn σ τ)} {acc acc' : σ}
    {e e' : List UInt8} {v : τ} (he : e ≠ []) (hstep : Reads W (step acc) e (.again acc'))
    (hrest : Reads W (loop eof step acc') e' v) : Reads W (loop eof step acc) (e ++ e') v := by
  intro a rest h
  rw [List.append_assoc] at h ⊢
  have hlen : (e' ++ rest).length ≤ (e ++ (e' ++ rest)).length - 1 := by
    have := List.length_pos_iff.mpr he
    simp only [List.length_append]
    omega
  have h1 := hrest (a + e.length) rest (W.drop h)
  have h2 := loopFuel_mono hlen h1
  obtain ⟨k, hk⟩ : ∃ k, (e ++ (e' ++ rest)).length = k + 1 :=
    ⟨(e ++ (e' ++ rest)).length - 1, by have := List.length_pos_iff.mpr he; simp; omega⟩
  rw [hk, Nat.add_sub_cancel] at h2
  unfold loop
  dsimp only
  rw [hk, loopFuel, bind_of_ok (hstep a (e' ++ rest) h)]
  simpa only [List.length_append, Nat.add_assoc] using h2

theorem Reads.loop_done {eof : ε} {step : σ → Parser ε (Turn σ τ)} {acc : σ}
    {e : List UInt8} {v : τ} (he : e ≠ []) (hstep : Reads W (step acc) e (.done v)) :
    Reads W (loop eof step acc) e v := by
  intro a rest h
  obtain ⟨k, hk⟩ : ∃ k, (e ++ rest).length = k + 1 :=
    ⟨(e ++ rest).length - 1, by have := List.length_pos_iff.mpr he; simp; omega⟩
  unfold loop
  dsimp only
  rw [hk, loopFuel, bind_of_ok (hstep a rest h)]
  rfl

theorem Scans.loopFuel {eof : ε} {step : σ → Parser ε (Turn σ τ)}
    (hstep : ∀ acc, Scans W (step acc)) (hprog : ∀ acc, Progresses (step acc)) :
    ∀ n acc s v r, W.mem s → loopFuel eof step n acc s = .ok (v, r) → ∃ e, s.After e r ∧
      ∀ rest, W.mem ⟨s.addr, e ++ rest⟩ → ∀ m, e.length ≤ m →
        Parser.loopFuel eof step m acc ⟨s.addr, e ++ rest⟩ = .ok (v, ⟨s.addr + e.length, rest⟩) := by
  intro n
  induction n with
  | zero => intro acc s v r _ h; cases h
  | succ n ih =>
    intro acc s v r hs h
    obtain ⟨turn, t, h1, h2⟩ := bind_eq_ok.mp h
    obtain ⟨e, he, hread⟩ := hstep acc s turn t hs h1
    have hpos : 0 < e.length := by
      have := hprog acc s turn t h1
      rw [he.1, List.length_append] at this
      omega
    cases turn with
    | done w =>
      cases h2
      refine ⟨e, he, fun rest hW m hm => ?_⟩
      obtain ⟨k, rfl⟩ : ∃ k, m = k + 1 := ⟨m - 1, by omega⟩
      rw [Parser.loopFuel, bind_of_ok (hread rest hW)]
      rfl
    | again acc' =>
      obtain ⟨e', he', hrest⟩ := ih acc' t v r (W.suffix hs he) h2
      refine ⟨e ++ e', he.trans he', fun rest hW m hm => ?_⟩
      rw [List.append_assoc] at hW ⊢
      rw [List.length_append] at hm
      obtain ⟨k, rfl⟩ : ∃ k, m = k + 1 := ⟨m - 1, by omega⟩
      have hW' := W.drop hW
      rw [Parser.loopFuel, bind_of_ok (hread _ hW)]
      have hk : e'.length ≤ k := by omega
      have := hrest rest (he.2 ▸ hW') k hk
      rw [he.2] at this
      simpa only [List.length_append, Nat.add_assoc] using this

theorem Scans.loop {eof : ε} {step : σ → Parser ε (Turn σ τ)}
    (hstep : ∀ acc, Scans W (step acc)) (hprog : ∀ acc, Progresses (step acc)) (acc : σ) :
    Scans W (loop eof step acc) := by
  intro s v r hs h
  obtain ⟨e, he, hread⟩ := Scans.loopFuel hstep hprog s.bytes.length acc s v r hs h
  refine ⟨e, he, fun rest hW => hread rest hW _ ?_⟩
  simp

theorem Progresses.bind {p : Parser ε α} {f : α → Parser ε β} (hp : Progresses p)
    (hf : ∀ v s w r, f v s = .ok (w, r) → r.bytes.length ≤ s.bytes.length) :
    Progresses (p >>= f) := by
  intro s w u h
  obtain ⟨v, r, h1, h2⟩ := bind_eq_ok.mp h
  have := hp s v r h1
  have := hf v r w u h2
  omega

theorem Scans.length_le {p : Parser ε α} (hp : Scans Window.all p) {s r : Slice} {v : α}
    (h : p s = .ok (v, r)) : r.bytes.length ≤ s.bytes.length := by
  obtain ⟨e, he, _⟩ := hp.reads h
  rw [he.1, List.length_append]
  omega

theorem Progresses.bind_scans {p : Parser ε α} {f : α → Parser ε β} (hp : Progresses p)
    (hf : ∀ v, Scans Window.all (f v)) : Progresses (p >>= f) :=
  hp.bind fun v _ _ _ h => (hf v).length_le h

/-- What `p` leaves is no longer than what it was given. -/
def Shortens (p : Parser ε α) : Prop := ∀ s v r, p s = .ok (v, r) → r.bytes.length ≤ s.bytes.length

theorem Shortens.of_scans {p : Parser ε α} (hp : Scans Window.all p) : Shortens p :=
  fun _ _ _ h => hp.length_le h

theorem Shortens.input : Shortens (Parser.input : Parser ε Slice) := fun _ _ _ h => by
  cases h
  exact le_rfl

theorem Shortens.bind {p : Parser ε α} {f : α → Parser ε β} (hp : Shortens p)
    (hf : ∀ v, Shortens (f v)) : Shortens (p >>= f) := by
  intro s w u h
  obtain ⟨v, r, h1, h2⟩ := bind_eq_ok.mp h
  exact (hf v r w u h2).trans (hp s v r h1)

theorem Progresses.bind_shortens {p : Parser ε α} {f : α → Parser ε β} (hp : Progresses p)
    (hf : ∀ v, Shortens (f v)) : Progresses (p >>= f) := hp.bind fun v s w r h => hf v s w r h

theorem Progresses.shortens {p : Parser ε α} (hp : Progresses p) : Shortens p :=
  fun s v r h => (hp s v r h).le

theorem loopFuel_progresses {eof : ε} {step : σ → Parser ε (Turn σ τ)}
    (hstep : ∀ acc, Progresses (step acc)) (n : ℕ) : ∀ acc, Progresses (loopFuel eof step n acc) := by
  induction n with
  | zero => exact fun acc s v r h => by cases h
  | succ n ih =>
    intro acc
    refine (hstep acc).bind_shortens fun turn => ?_
    cases turn with
    | again acc => exact (ih acc).shortens
    | done v => exact .of_scans (.pure v)

theorem Progresses.loop {eof : ε} {step : σ → Parser ε (Turn σ τ)}
    (hstep : ∀ acc, Progresses (step acc)) (acc : σ) : Progresses (Parser.loop eof step acc) :=
  fun s v r h => loopFuel_progresses hstep s.bytes.length acc s v r h

theorem Progresses.peek_bind {p : Parser ε α} {f : α → Parser ε β} (hf : ∀ v, Progresses (f v)) :
    Progresses (peek p >>= f) := by
  intro s w r h
  obtain ⟨v, s', h1, h2⟩ := bind_eq_ok.mp h
  obtain ⟨rfl, _⟩ := peek_eq_ok.mp h1
  exact hf v s' w r h2

theorem skipMany_length {p : Parser ε α} (hp : Progresses p) : ∀ {n : ℕ} {s r : Slice},
    Parser.skipMany p n s = .ok ((), r) → r.bytes.length + n ≤ s.bytes.length
  | 0, s, r, h => by cases h; exact le_rfl
  | n + 1, s, r, h => by
    obtain ⟨v, t, h1, h2⟩ := bind_eq_ok.mp h
    have := hp s v t h1
    have := skipMany_length hp h2
    omega

theorem loop_ok {eof : ε} {step : σ → Parser ε (Turn σ τ)} {P : σ → Slice → Prop}
    {Q : τ → Slice → Prop}
    (hagain : ∀ acc acc' s r, P acc s → step acc s = .ok (.again acc', r) → P acc' r)
    (hdone : ∀ acc v s r, P acc s → step acc s = .ok (.done v, r) → Q v r)
    {acc : σ} {v : τ} {s r : Slice} (hP : P acc s) (h : Parser.loop eof step acc s = .ok (v, r)) :
    Q v r := by
  have key : ∀ n acc s, P acc s → Parser.loopFuel eof step n acc s = .ok (v, r) → Q v r := by
    intro n
    induction n with
    | zero => intro acc s _ h; cases h
    | succ n ih =>
      intro acc s hP h
      obtain ⟨turn, t, h1, h2⟩ := bind_eq_ok.mp h
      cases turn with
      | again acc' => exact ih acc' t (hagain acc acc' s t hP h1) h2
      | done w =>
        cases h2
        exact hdone acc v s r hP h1
  exact key _ acc s hP h

/-- Fuel for every byte is as good as any more: a loop that is out of bytes ends either way. -/
theorem loopFuel_eq {eof : ε} {step : σ → Parser ε (Turn σ τ)} (hprog : ∀ acc, Progresses (step acc))
    (hend : ∀ acc s, s.bytes = [] → step acc s = .error eof) :
    ∀ {n m : ℕ} {acc : σ} {s : Slice}, s.bytes.length ≤ n → s.bytes.length ≤ m →
      Parser.loopFuel eof step n acc s = Parser.loopFuel eof step m acc s := by
  have hempty (m : ℕ) (acc : σ) (s : Slice) (hs : s.bytes = []) :
      Parser.loopFuel eof step m acc s = .error eof := by
    cases m with
    | zero => rfl
    | succ m => rw [Parser.loopFuel, bind_apply, hend acc s hs]
  intro n
  induction n with
  | zero =>
    intro m acc s hn _
    have hs : s.bytes = [] := List.length_eq_zero_iff.mp (by omega)
    rw [hempty 0 acc s hs, hempty m acc s hs]
  | succ n ih =>
    intro m acc s hn hm
    by_cases hs : s.bytes = []
    · rw [hempty _ acc s hs, hempty m acc s hs]
    · obtain ⟨m, rfl⟩ : ∃ k, m = k + 1 := ⟨m - 1, by
        have := List.length_pos_iff.mpr hs
        omega⟩
      rw [Parser.loopFuel, Parser.loopFuel, bind_apply, bind_apply]
      cases h : step acc s with
      | error e => rfl
      | ok v =>
        obtain ⟨turn, t⟩ := v
        have := hprog acc s turn t h
        cases turn with
        | done v => rfl
        | again acc' =>
          show Parser.loopFuel eof step n acc' t = Parser.loopFuel eof step m acc' t
          exact ih (by omega) (by omega)

theorem loop_of_done {eof : ε} {step : σ → Parser ε (Turn σ τ)} (hprog : ∀ acc, Progresses (step acc))
    {acc : σ} {s r : Slice} {v : τ} (h : step acc s = .ok (.done v, r)) :
    Parser.loop eof step acc s = .ok (v, r) := by
  obtain ⟨k, hk⟩ : ∃ k, s.bytes.length = k + 1 := ⟨s.bytes.length - 1, by
    have := hprog acc s _ r h
    omega⟩
  show Parser.loopFuel eof step s.bytes.length acc s = _
  rw [hk, Parser.loopFuel, bind_of_ok h]
  rfl

/-- Where a loop stops, another loop that took the same turns so far goes on from there. -/
theorem loop_stops {eof : ε} {p q : σ → Parser ε (Turn σ τ)} {I : σ → Slice → Prop}
    (hprog : ∀ acc, Progresses (q acc)) (hend : ∀ acc s, s.bytes = [] → q acc s = .error eof)
    (hstep : ∀ acc acc' s r, I acc s → p acc s = .ok (.again acc', r) →
      q acc s = .ok (.again acc', r) ∧ I acc' r)
    {acc : σ} {v : τ} {s r : Slice} (hI : I acc s) (h : Parser.loop eof p acc s = .ok (v, r)) :
    ∃ acc' s', I acc' s' ∧ p acc' s' = .ok (.done v, r) ∧
      Parser.loop eof q acc s = Parser.loop eof q acc' s' := by
  have key : ∀ n acc s, I acc s → Parser.loopFuel eof p n acc s = .ok (v, r) →
      ∃ acc' s', I acc' s' ∧ p acc' s' = .ok (.done v, r) ∧
        Parser.loop eof q acc s = Parser.loop eof q acc' s' := by
    intro n
    induction n with
    | zero => intro acc s _ h; cases h
    | succ n ih =>
      intro acc s hI h
      obtain ⟨turn, t, h1, h2⟩ := bind_eq_ok.mp h
      cases turn with
      | done w =>
        cases h2
        exact ⟨acc, s, hI, h1, rfl⟩
      | again acc' =>
        obtain ⟨hq, hI'⟩ := hstep acc acc' s t hI h1
        obtain ⟨acc'', s'', hI'', hdone, hrest⟩ := ih acc' t hI' h2
        refine ⟨acc'', s'', hI'', hdone, ?_⟩
        rw [← hrest]
        have hlt := hprog acc s _ t hq
        obtain ⟨k, hk⟩ : ∃ k, s.bytes.length = k + 1 := ⟨s.bytes.length - 1, by omega⟩
        show Parser.loopFuel eof q s.bytes.length acc s = _
        rw [hk, Parser.loopFuel, bind_of_ok hq]
        exact loopFuel_eq hprog hend (by omega) le_rfl
  exact key _ acc s hI h

/-- Whatever `p` reads, `q` reads as the same value. -/
def Below (p q : Parser ε α) : Prop := ∀ s v, p s = .ok v → q s = .ok v

theorem Below.refl (p : Parser ε α) : Below p p := fun _ _ h => h

theorem Below.fail (e : ε) (q : Parser ε α) : Below (fail e) q := fun _ _ h => by cases h

theorem Below.bind {p q : Parser ε α} {f g : α → Parser ε β} (hpq : Below p q)
    (hfg : ∀ v, Below (f v) (g v)) : Below (p >>= f) (q >>= g) := by
  intro s w h
  obtain ⟨v, r, h1, h2⟩ := bind_eq_ok.mp h
  exact bind_eq_ok.mpr ⟨v, r, hpq s _ h1, hfg v r w h2⟩

theorem Below.loop {eof : ε} {step step' : σ → Parser ε (Turn σ τ)}
    (h : ∀ acc, Below (step acc) (step' acc)) (acc : σ) :
    Below (Parser.loop eof step acc) (Parser.loop eof step' acc) := by
  have key : ∀ n acc, Below (Parser.loopFuel eof step n acc) (Parser.loopFuel eof step' n acc) := by
    intro n
    induction n with
    | zero => intro acc; exact .refl _
    | succ n ih =>
      intro acc
      refine (h acc).bind fun turn => ?_
      cases turn with
      | again acc => exact ih acc
      | done v => exact .refl _
  exact fun s v hs => key s.bytes.length acc s v hs

/-! Two parsers of one format -/

inductive SameOutcome (R : α → β → Prop) (s : Slice) :
    Except ε (α × Slice) → Except ε' (β × Slice) → Prop where
  | ok {a : α} {b : β} {r : Slice} {e : List UInt8} :
      R a b → s.After e r → SameOutcome R s (.ok (a, r)) (.ok (b, r))
  | error {e : ε} {e' : ε'} : SameOutcome R s (.error e) (.error e')

/-- `p` and `q` accept the same bytes, leave the same remainder and answer related values. -/
def Agrees (W : Window) (R : α → β → Prop) (p : Parser ε α) (q : Parser ε' β) : Prop :=
  ∀ s, W.mem s → SameOutcome R s (p s) (q s)

theorem Agrees.pure {R : α → β → Prop} {a : α} {b : β} (h : R a b) :
    Agrees W R (pure a : Parser ε α) (pure b : Parser ε' β) := fun s _ => .ok h (.refl s)

theorem Agrees.fail {R : α → β → Prop} (e : ε) (e' : ε') :
    Agrees W R (fail e : Parser ε α) (fail e' : Parser ε' β) := fun _ _ => .error

theorem Agrees.input : Agrees W (fun s t => s = t ∧ W.mem s)
    (Parser.input : Parser ε Slice) (Parser.input : Parser ε' Slice) :=
  fun s hs => .ok ⟨rfl, hs⟩ (.refl s)

theorem Agrees.bind {R : α → β → Prop} {T : γ → δ → Prop} {p : Parser ε α} {q : Parser ε' β}
    {f : α → Parser ε γ} {g : β → Parser ε' δ} (hp : Agrees W R p q)
    (hf : ∀ a b, R a b → Agrees W T (f a) (g b)) : Agrees W T (p >>= f) (q >>= g) := by
  intro s hs
  have h := hp s hs
  rw [bind_apply, bind_apply]
  generalize p s = x at h ⊢
  generalize q s = y at h ⊢
  cases h with
  | error => exact .error
  | @ok a b r e hab he =>
    have h' := hf a b hab r (W.suffix hs he)
    dsimp only
    generalize f a r = x at h' ⊢
    generalize g b r = y at h' ⊢
    cases h' with
    | error => exact .error
    | ok hcd he' => exact .ok hcd (he.trans he')

theorem Agrees.of_scans {p : Parser ε α} (hp : Scans W p) : Agrees W Eq p p := by
  intro s hs
  cases h : p s with
  | error e => exact .error
  | ok v =>
    obtain ⟨v, r⟩ := v
    obtain ⟨e, he, _⟩ := hp s v r hs h
    exact .ok rfl he

theorem Agrees.of_ok {R : α → β → Prop} {p : Parser ε α} {q : Parser ε' β}
    (h : ∀ s a r, W.mem s → p s = .ok (a, r) →
      ∃ b e, q s = .ok (b, r) ∧ R a b ∧ s.After e r)
    (h' : ∀ s b r, W.mem s → q s = .ok (b, r) → ∃ a r', p s = .ok (a, r')) : Agrees W R p q := by
  intro s hs
  cases hp : p s with
  | ok v =>
    obtain ⟨a, r⟩ := v
    obtain ⟨b, e, hq, hab, he⟩ := h s a r hs hp
    rw [hq]
    exact .ok hab he
  | error e =>
    cases hq : q s with
    | error e' => exact .error
    | ok v =>
      obtain ⟨b, r⟩ := v
      obtain ⟨a, r', hp'⟩ := h' s b r hs hq
      rw [hp] at hp'
      cases hp'

theorem Agrees.ok_iff {R : α → β → Prop} {p : Parser ε α} {q : Parser ε' β} (h : Agrees W R p q)
    {s : Slice} (hs : W.mem s) (r : Slice) :
    (∃ a, p s = .ok (a, r)) ↔ ∃ b, q s = .ok (b, r) := by
  have h := h s hs
  generalize p s = x at h ⊢
  generalize q s = y at h ⊢
  cases h with
  | error => simp
  | ok => simp

theorem Agrees.ok {R : α → β → Prop} {p : Parser ε α} {q : Parser ε' β} (h : Agrees W R p q)
    {s r : Slice} {a : α} (hs : W.mem s) (hp : p s = .ok (a, r)) :
    ∃ b, q s = .ok (b, r) ∧ R a b := by
  have h := h s hs
  generalize q s = y at h ⊢
  rw [hp] at h
  cases h with
  | ok hab _ => exact ⟨_, rfl, hab⟩

theorem Agrees.reads_unit {R : Unit → β → Prop} {p : Parser ε Unit} {q : Parser ε' β}
    {e : List UInt8} {v : β} (h : Agrees W R p q) (hq : Reads W q e v) : Reads W p e () := by
  intro a rest hmem
  obtain ⟨_, hp⟩ := (h.ok_iff hmem _).mpr ⟨v, hq a rest hmem⟩
  exact hp

theorem Agrees.mono {R T : α → β → Prop} {p : Parser ε α} {q : Parser ε' β} (h : Agrees W R p q)
    (hRT : ∀ a b, R a b → T a b) : Agrees W T p q := by
  intro s hs
  have h := h s hs
  generalize p s = x at h ⊢
  generalize q s = y at h ⊢
  cases h with
  | error => exact .error
  | ok hab he => exact .ok (hRT _ _ hab) he

theorem Agrees.count {R : α → β → Prop} {p : Parser ε α} {q : Parser ε' β} (h : Agrees W R p q) :
    ∀ n, Agrees W (List.Forall₂ R) (count p n) (count q n)
  | 0 => .pure .nil
  | n + 1 => h.bind fun _ _ hab => (Agrees.count h n).bind fun _ _ hl => .pure (.cons hab hl)

theorem Agrees.iterate {S : ℕ → σ → σ' → Prop} {f : σ → Parser ε σ} {g : σ' → Parser ε' σ'}
    (h : ∀ k a b, S k a b → Agrees W (S (k + 1)) (f a) (g b)) :
    ∀ n k a b, S k a b → Agrees W (S (k + n)) (iterate f n a) (iterate g n b)
  | 0, _, _, _, hab => .pure hab
  | n + 1, k, a, b, hab => (h k a b hab).bind fun a b hab => by
    rw [← Nat.add_assoc, Nat.add_right_comm]
    exact Agrees.iterate h n (k + 1) a b hab

theorem Agrees.skipMany_count {R : α → β → Prop} {p : Parser ε α} {q : Parser ε' β}
    (h : Agrees W R p q) :
    ∀ n, Agrees W (fun _ _ => True) (Parser.skipMany p n) (Parser.count q n)
  | 0 => .pure trivial
  | n + 1 => h.bind fun _ b _ => by
    rw [← bind_pure (Parser.skipMany p n)]
    exact (Agrees.skipMany_count h n).bind fun _ bs _ => .pure trivial

theorem Agrees.map_right {R : α → β → Prop} {T : α → γ → Prop} {p : Parser ε α} {q : Parser ε' β}
    {f : β → γ} (h : Agrees W R p q) (hT : ∀ a b, R a b → T a (f b)) :
    Agrees W T p (do let b ← q; Pure.pure (f b)) := by
  rw [← bind_pure p]
  exact h.bind fun a b hab => .pure (hT a b hab)

theorem Agrees.peek_bind {T : γ → δ → Prop} {p : Parser ε α} {f : α → Parser ε γ}
    {g : α → Parser ε δ} (hfg : ∀ v, Agrees W T (f v) (g v)) :
    Agrees W T (peek p >>= f) (peek p >>= g) := by
  intro s hs
  rw [bind_apply, bind_apply]
  cases h : peek p s with
  | error e => exact .error
  | ok v =>
    obtain ⟨v, r⟩ := v
    obtain ⟨rfl, _⟩ := peek_eq_ok.mp h
    exact hfg v r hs

/-- Related turns: both go on in related states, or both end in related values. -/
inductive SameTurn (S : σ → σ' → Prop) (T : τ → τ' → Prop) : Turn σ τ → Turn σ' τ' → Prop where
  | again {a : σ} {b : σ'} : S a b → SameTurn S T (.again a) (.again b)
  | done {a : τ} {b : τ'} : T a b → SameTurn S T (.done a) (.done b)

theorem Agrees.loop {S : σ → σ' → Prop} {T : τ → τ' → Prop} {eof : ε} {eof' : ε'}
    {step : σ → Parser ε (Turn σ τ)} {step' : σ' → Parser ε' (Turn σ' τ')}
    (h : ∀ a b, S a b → Agrees W (SameTurn S T) (step a) (step' b)) {a : σ} {b : σ'}
    (hab : S a b) : Agrees W T (loop eof step a) (loop eof' step' b) := by
  have key : ∀ n a b, S a b →
      Agrees W T (Parser.loopFuel eof step n a) (Parser.loopFuel eof' step' n b) := by
    intro n
    induction n with
    | zero => intro a b _; exact .fail eof eof'
    | succ n ih =>
      intro a b hab
      refine (h a b hab).bind fun t u htu => ?_
      cases htu with
      | again hs => exact ih _ _ hs
      | done ht => exact .pure ht
  exact fun s hs => key s.bytes.length a b hab s hs

/-! A parser that goes wherever another one goes, and loops led by a third one -/

section
variable {ρ κ : Type}

/-- Wherever `p` succeeds, `q` succeeds and stops at the same place. -/
def Mirrors (R : α → β → Prop) (p : Parser ε α) (q : Parser ε' β) : Prop :=
  ∀ s a r, p s = .ok (a, r) → ∃ b, q s = .ok (b, r) ∧ R a b

theorem Mirrors.pure {R : α → β → Prop} {a : α} {b : β} (h : R a b) :
    Mirrors R (Pure.pure a : Parser ε α) (Pure.pure b : Parser ε' β) := by
  intro s a' r hrun
  cases hrun
  exact ⟨b, rfl, h⟩

theorem Mirrors.refl (p : Parser ε α) : Mirrors Eq p p := fun _ a _ h => ⟨a, h, rfl⟩

theorem Mirrors.bind {R : α → β → Prop} {T : γ → δ → Prop} {p : Parser ε α} {q : Parser ε' β}
    {f : α → Parser ε γ} {g : β → Parser ε' δ} (hp : Mirrors R p q)
    (hf : ∀ a b, R a b → Mirrors T (f a) (g b)) : Mirrors T (p >>= f) (q >>= g) := by
  intro s c u h
  obtain ⟨a, r, hrun, h⟩ := bind_eq_ok.mp h
  obtain ⟨b, hq, hab⟩ := hp s a r hrun
  obtain ⟨d, hg, hcd⟩ := hf a b hab r c u h
  exact ⟨d, bind_eq_ok.mpr ⟨b, r, hq, hg⟩, hcd⟩

theorem Mirrors.check {R : α → β → Prop} {x : Except ε γ} {f : γ → Parser ε α} {q : Parser ε' β}
    (hf : ∀ c, x = .ok c → Mirrors R (f c) q) : Mirrors R (Parser.ofExcept x >>= f) q := by
  intro s a r h
  obtain ⟨c, t, hcheck, hrest⟩ := bind_eq_ok.mp h
  obtain ⟨hok, rfl⟩ := ofExcept_eq_ok.mp hcheck
  exact hf c hok t a r hrest

theorem Mirrors.loop {S : σ → ρ → Prop} {T : τ → κ → Prop} {eof : ε} {eof' : ε'}
    {p : σ → Parser ε (Turn σ τ)} {q : ρ → Parser ε' (Turn ρ κ)}
    (h : ∀ a b, S a b → Mirrors (SameTurn S T) (p a) (q b)) {a : σ} {b : ρ} (hab : S a b) :
    Mirrors T (Parser.loop eof p a) (Parser.loop eof' q b) := by
  have hfuel : ∀ n a b, S a b → Mirrors T (loopFuel eof p n a) (loopFuel eof' q n b) := by
    intro n
    induction n with
    | zero =>
      intro a b _ s v r hrun
      cases hrun
    | succ n ih =>
      intro a b hab
      refine (h a b hab).bind fun turn turn' hturn => ?_
      cases hturn with
      | again hab => exact ih _ _ hab
      | done hvw => exact .pure hvw
  exact fun s v r hrun => hfuel s.bytes.length a b hab s v r hrun

/-- Two loops that take the same turns wherever a third one, their guide, takes a good turn, are the
same where the guide comes to a good end. -/
theorem loop_guided {eof : ε} {eof' : ε'} {p p' : σ → Parser ε (Turn σ τ)}
    {q : ρ → Parser ε' (Turn ρ κ)} {I : σ → Prop} {G : ρ → Prop} {E : κ → Prop}
    (hback : ∀ b s b' t, q b s = .ok (.again b', t) → G b' → G b)
    (hend : ∀ b s w t, q b s = .ok (.done w, t) → E w → G b)
    (hdone : ∀ a b s w t, I a → q b s = .ok (.done w, t) →
      ∃ v, p a s = .ok (.done v, t) ∧ p' a s = .ok (.done v, t))
    (hagain : ∀ a b s b' t, I a → q b s = .ok (.again b', t) → G b' →
      p a s = p' a s ∧ ∀ turn r, p a s = .ok (turn, r) → r = t ∧ ∃ a', turn = .again a' ∧ I a')
    {a : σ} {b : ρ} {s r : Slice} {w : κ} (ha : I a) (h : Parser.loop eof' q b s = .ok (w, r)) (hw : E w) :
    Parser.loop eof p a s = Parser.loop eof p' a s := by
  have hgood : ∀ n b s, loopFuel eof' q n b s = .ok (w, r) → G b := by
    intro n
    induction n with
    | zero =>
      intro b s hrun
      cases hrun
    | succ n ih =>
      intro b s hrun
      obtain ⟨turn, t, hturn, hrest⟩ := bind_eq_ok.mp hrun
      cases turn with
      | again b' => exact hback b s b' t hturn (ih b' t hrest)
      | done w' =>
        cases hrest
        exact hend b s w r hturn hw
  have hsame : ∀ n a b s, I a → loopFuel eof' q n b s = .ok (w, r) →
      loopFuel eof p n a s = loopFuel eof p' n a s := by
    intro n
    induction n with
    | zero => exact fun _ _ _ _ _ => rfl
    | succ n ih =>
      intro a b s ha hrun
      obtain ⟨turn, t, hturn, hrest⟩ := bind_eq_ok.mp hrun
      unfold loopFuel
      cases turn with
      | again b' =>
        obtain ⟨heq, honly⟩ := hagain a b s b' t ha hturn (hgood n b' t hrest)
        rw [bind_apply, bind_apply, ← heq]
        rcases hp : p a s with e | ⟨turn', r'⟩
        · rfl
        · obtain ⟨rfl, a', rfl, ha'⟩ := honly turn' r' hp
          exact ih a' b' r' ha' hrest
      | done w' =>
        obtain ⟨v, hp, hp'⟩ := hdone a b s w' t ha hturn
        rw [bind_of_ok hp, bind_of_ok hp']
  exact hsame s.bytes.length a b s ha h

end

end

end Wire
