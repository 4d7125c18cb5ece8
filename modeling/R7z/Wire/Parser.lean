import Mathlib.Tactic

/-! Prefix parsers over a borrowed slice of memory. A parser is a function from the unread slice
to a value and the slice that is left, or to an error. The rules below let a format be verified
field by field: what a parser reads (`Reads`), that it looks at nothing past what it reads
(`Scans`), and that two parsers accept the same bytes (`Agrees`). -/

namespace Wire

/-- A borrowed slice: the address of its first byte and the bytes it holds. -/
structure Slice where
  addr : Nat
  bytes : List UInt8
deriving DecidableEq, Repr

/-- `s.After e r`: reading the bytes `e` from the front of `s` leaves `r`. -/
def Slice.After (s : Slice) (e : List UInt8) (r : Slice) : Prop :=
  s.bytes = e ++ r.bytes ∧ r.addr = s.addr + e.length

theorem Slice.After.refl (s : Slice) : s.After [] s := ⟨rfl, rfl⟩

theorem Slice.After.trans {s t u : Slice} {e f : List UInt8} (h : s.After e t) (h' : t.After f u) :
    s.After (e ++ f) u := by
  refine ⟨?_, ?_⟩
  · rw [h.1, h'.1, List.append_assoc]
  · rw [h'.2, h.2, List.length_append, Nat.add_assoc]

theorem Slice.After.append (a : Nat) (e rest : List UInt8) :
    (Slice.mk a (e ++ rest)).After e ⟨a + e.length, rest⟩ := ⟨rfl, rfl⟩

theorem Slice.After.unique {s r : Slice} {e f : List UInt8} (h : s.After e r) (h' : s.After f r) :
    e = f := List.append_cancel_right (h.1.symm.trans h'.1)

theorem except_bind_eq_ok {ε α β : Type} {x : Except ε α} {f : α → Except ε β} {b : β} :
    (x >>= f) = .ok b ↔ ∃ a, x = .ok a ∧ f a = .ok b := by
  cases x with
  | error e =>
    constructor
    · intro h
      cases h
    · rintro ⟨_, h, _⟩
      cases h
  | ok a =>
    constructor
    · exact fun h => ⟨a, rfl, h⟩
    · rintro ⟨_, h, h'⟩
      cases h
      exact h'

theorem except_bind_eq_error {ε α β : Type} {x : Except ε α} {f : α → Except ε β} {e : ε} :
    (x >>= f) = .error e ↔ x = .error e ∨ ∃ a, x = .ok a ∧ f a = .error e := by
  cases x with
  | error e' =>
    constructor
    · intro h
      cases h
      exact .inl rfl
    · rintro (h | ⟨a, h, -⟩)
      · cases h
        rfl
      · cases h
  | ok a =>
    constructor
    · exact fun h => .inr ⟨a, rfl, h⟩
    · rintro (h | ⟨a', h, hf⟩)
      · cases h
      · cases h
        exact hf

theorem except_map_eq_ok {ε α β : Type} {x : Except ε α} {f : α → β} {b : β} :
    x.map f = .ok b ↔ ∃ a, x = .ok a ∧ f a = b := by
  cases x with
  | error e => exact ⟨fun h => (nomatch h), fun ⟨_, h, _⟩ => nomatch h⟩
  | ok a => exact ⟨fun h => ⟨a, rfl, Except.ok.inj h⟩, fun ⟨_, h, hb⟩ => Except.ok.inj h ▸ congrArg _ hb⟩

theorem except_bind_map {ε α β γ : Type} (x : Except ε α) (f : α → Except ε β) (g : β → γ) :
    (x >>= f).map g = x >>= fun a => (f a).map g := by
  cases x <;> rfl

theorem toOption_eq_some {ε α : Type} {x : Except ε α} {a : α} : x.toOption = some a ↔ x = .ok a := by
  cases x with
  | error e => exact ⟨fun h => (by cases h), fun h => (by cases h)⟩
  | ok b => exact ⟨fun h => congrArg _ (Option.some.inj h), fun h => congrArg _ (Except.ok.inj h)⟩

/-- A set of slices closed under reading from the front. -/
structure Window where
  mem : Slice → Prop
  suffix : ∀ {s r : Slice} {e : List UInt8}, mem s → s.After e r → mem r

def Window.all : Window := ⟨fun _ => True, fun _ _ => trivial⟩

theorem Window.drop (W : Window) {a : Nat} {e rest : List UInt8} (h : W.mem ⟨a, e ++ rest⟩) :
    W.mem ⟨a + e.length, rest⟩ := W.suffix h (Slice.After.append a e rest)

/-- The slices that lie inside one buffer. -/
def Window.within (backing : Slice) : Window where
  mem s := ∃ pre post, backing.bytes = pre ++ s.bytes ++ post ∧ s.addr = backing.addr + pre.length
  suffix := by
    rintro s r e ⟨pre, post, hb, ha⟩ ⟨hs, hr⟩
    refine ⟨pre ++ e, post, ?_, ?_⟩
    · rw [hb, hs]; simp only [List.append_assoc]
    · rw [hr, ha, List.length_append, Nat.add_assoc]

theorem Window.within_self (b : Slice) : (Window.within b).mem b := ⟨[], [], by simp, rfl⟩

theorem Window.within_take {b s : Slice} (h : (Window.within b).mem s) (n : ℕ) :
    (Window.within b).mem ⟨s.addr, s.bytes.take n⟩ := by
  obtain ⟨pre, post, hb, ha⟩ := h
  refine ⟨pre, s.bytes.drop n ++ post, ?_, ha⟩
  rw [hb, List.append_assoc, List.append_assoc, ← List.append_assoc (s.bytes.take n),
    List.take_append_drop]

def Window.shorter (n : ℕ) : Window where
  mem s := s.bytes.length < n
  suffix := by
    rintro s r e hs ⟨hb, _⟩
    rw [hb, List.length_append] at hs
    omega

def Window.inter (V W : Window) : Window where
  mem s := V.mem s ∧ W.mem s
  suffix := fun h ha => ⟨V.suffix h.1 ha, W.suffix h.2 ha⟩

def Parser (ε α : Type) : Type := Slice → Except ε (α × Slice)

section
variable {ε ε' α β γ δ σ τ : Type}

namespace Parser

instance : Monad (Parser ε) where
  pure a := fun s => .ok (a, s)
  bind p f := fun s => match p s with
    | .ok (a, r) => f a r
    | .error e => .error e

def fail (e : ε) : Parser ε α := fun _ => .error e

def input : Parser ε Slice := fun s => .ok (s, s)

def resume (s : Slice) : Parser ε Unit := fun _ => .ok ((), s)

def ofExcept : Except ε α → Parser ε α
  | .ok a => pure a
  | .error e => fail e

def peek (p : Parser ε α) : Parser ε α := fun s => match p s with
  | .ok (a, _) => .ok (a, s)
  | .error e => .error e

def mapError (f : ε → ε') (p : Parser ε α) : Parser ε' α := fun s => match p s with
  | .ok v => .ok v
  | .error e => .error (f e)

def byte (eof : ε) : Parser ε UInt8 := fun s => match s.bytes with
  | [] => .error eof
  | b :: bs => .ok (b, ⟨s.addr + 1, bs⟩)

def take (eof : ε) (n : Nat) : Parser ε Slice := fun s =>
  if n ≤ s.bytes.length then .ok (⟨s.addr, s.bytes.take n⟩, ⟨s.addr + n, s.bytes.drop n⟩)
  else .error eof

def count (p : Parser ε α) : Nat → Parser ε (List α)
  | 0 => pure []
  | n + 1 => do
    let a ← p
    let as ← count p n
    pure (a :: as)

def iterate (f : σ → Parser ε σ) : Nat → σ → Parser ε σ
  | 0, acc => pure acc
  | n + 1, acc => do
    let acc ← f acc
    iterate f n acc

def skipMany (p : Parser ε α) : Nat → Parser ε Unit
  | 0 => pure ()
  | n + 1 => do
    let _ ← p
    skipMany p n

def each {ι : Type} (f : ι → Parser ε α) : List ι → Parser ε (List α)
  | [] => pure []
  | i :: is => do
    let a ← f i
    let as ← each f is
    pure (a :: as)

end Parser

inductive Turn (σ τ : Type) where
  | again (acc : σ)
  | done (value : τ)

namespace Parser

def loopFuel (eof : ε) (step : σ → Parser ε (Turn σ τ)) : Nat → σ → Parser ε τ
  | 0, _ => fail eof
  | n + 1, acc => do
    match ← step acc with
    | .again acc => loopFuel eof step n acc
    | .done v => pure v

/-- A loop whose turns each read at least one byte, so the length of the input bounds them. -/
def loop (eof : ε) (step : σ → Parser ε (Turn σ τ)) (acc : σ) : Parser ε τ := fun s =>
  loopFuel eof step s.bytes.length acc s

@[simp] theorem pure_apply (a : α) (s : Slice) : (pure a : Parser ε α) s = .ok (a, s) := rfl

theorem bind_apply (p : Parser ε α) (f : α → Parser ε β) (s : Slice) :
    (p >>= f) s = match p s with
      | .ok (a, r) => f a r
      | .error e => .error e := rfl

theorem bind_of_ok {p : Parser ε α} {f : α → Parser ε β} {s r : Slice} {a : α}
    (h : p s = .ok (a, r)) : (p >>= f) s = f a r := by rw [bind_apply, h]

theorem bind_of_error {p : Parser ε α} {f : α → Parser ε β} {s : Slice} {e : ε}
    (h : p s = .error e) : (p >>= f) s = .error e := by rw [bind_apply, h]

theorem bind_eq_ok {p : Parser ε α} {f : α → Parser ε β} {s u : Slice} {b : β} :
    (p >>= f) s = .ok (b, u) ↔ ∃ a r, p s = .ok (a, r) ∧ f a r = .ok (b, u) := by
  rw [bind_apply]
  cases h : p s with
  | error e => simp
  | ok ar =>
    obtain ⟨a, r⟩ := ar
    constructor
    · exact fun h' => ⟨a, r, rfl, h'⟩
    · rintro ⟨a', r', h', hf⟩
      cases h'
      exact hf

instance : LawfulMonad (Parser ε) := LawfulMonad.mk' _
  (fun p => by
    funext s
    change (p >>= pure) s = p s
    rw [bind_apply]
    cases p s <;> rfl)
  (fun _ _ => rfl)
  (fun p f g => by
    funext s
    simp only [bind_apply]
    cases p s <;> rfl)

@[simp] theorem fail_apply (e : ε) (s : Slice) : (fail e : Parser ε α) s = .error e := rfl

@[simp] theorem input_apply (s : Slice) : (input : Parser ε Slice) s = .ok (s, s) := rfl

@[simp] theorem resume_apply (s t : Slice) : (resume t : Parser ε Unit) s = .ok ((), t) := rfl

theorem peek_eq_ok {p : Parser ε α} {s r : Slice} {a : α} :
    peek p s = .ok (a, r) ↔ r = s ∧ ∃ t, p s = .ok (a, t) := by
  unfold peek
  cases h : p s with
  | error e => simp
  | ok v => simp [Prod.ext_iff, and_comm, eq_comm]

theorem mapError_eq_ok {f : ε → ε'} {p : Parser ε α} {s : Slice} {v : α × Slice} :
    mapError f p s = .ok v ↔ p s = .ok v := by
  unfold mapError
  cases p s with
  | error e => simp
  | ok v => simp

theorem ofExcept_eq_ok {x : Except ε α} {s r : Slice} {a : α} :
    ofExcept x s = .ok (a, r) ↔ x = .ok a ∧ r = s := by
  cases x with
  | error e => simp [Parser.ofExcept, fail]
  | ok b => simp [Parser.ofExcept, eq_comm]

theorem byte_eq_ok {eof : ε} {s r : Slice} {b : UInt8} :
    byte eof s = .ok (b, r) ↔ s.After [b] r := by
  rcases s with ⟨a, bs⟩
  rcases r with ⟨a', bs'⟩
  cases bs with
  | nil => simp [byte, Slice.After]
  | cons c cs =>
    simp only [byte, Slice.After, Except.ok.injEq, Prod.mk.injEq, Slice.mk.injEq, List.cons_append,
      List.nil_append, List.cons.injEq, List.length_singleton]
    constructor
    · rintro ⟨rfl, rfl, rfl⟩; exact ⟨⟨rfl, rfl⟩, rfl⟩
    · rintro ⟨⟨rfl, rfl⟩, rfl⟩; exact ⟨rfl, rfl, rfl⟩

theorem take_append (eof : ε) (a : Nat) (e rest : List UInt8) :
    take eof e.length ⟨a, e ++ rest⟩ = .ok (⟨a, e⟩, ⟨a + e.length, rest⟩) := by
  simp [take]

theorem take_eq_ok {eof : ε} {n : Nat} {s r t : Slice} :
    take eof n s = .ok (t, r) ↔ t.bytes.length = n ∧ t.addr = s.addr ∧ s.After t.bytes r := by
  rcases s with ⟨a, bs⟩
  rcases r with ⟨a', bs'⟩
  rcases t with ⟨a'', ts⟩
  unfold take
  constructor
  · intro h
    split at h
    · next hn =>
      simp only [Except.ok.injEq, Prod.mk.injEq, Slice.mk.injEq] at h
      obtain ⟨⟨rfl, rfl⟩, rfl, rfl⟩ := h
      have hl : (bs.take n).length = n := by simpa using hn
      exact ⟨hl, rfl, (List.take_append_drop n bs).symm, by rw [hl]⟩
    · cases h
  · rintro ⟨rfl, rfl, h1, h2⟩
    dsimp only at h1 h2
    subst h1 h2
    simp

end Parser

open Wire.Parser

/-! What a parser reads -/

/-- `p` reads exactly the bytes `e` as `v`, whatever follows them. -/
def Reads (W : Window) (p : Parser ε α) (e : List UInt8) (v : α) : Prop :=
  ∀ a rest, W.mem ⟨a, e ++ rest⟩ → p ⟨a, e ++ rest⟩ = .ok (v, ⟨a + e.length, rest⟩)

variable {W : Window}

theorem Reads.det {p : Parser ε α} {e : List UInt8} {v w : α} {a : Nat} {rest : List UInt8} {r : Slice}
    (h : Reads Window.all p e v) (hrun : p ⟨a, e ++ rest⟩ = .ok (w, r)) :
    w = v ∧ r = ⟨a + e.length, rest⟩ := by
  rw [h a rest trivial] at hrun
  cases hrun
  exact ⟨rfl, rfl⟩

theorem Reads.pure (v : α) : Reads W (pure v : Parser ε α) [] v := fun _ _ _ => rfl

theorem Reads.bind {p : Parser ε α} {f : α → Parser ε β} {e e' : List UInt8} {v : α} {w : β}
    (hp : Reads W p e v) (hf : Reads W (f v) e' w) : Reads W (p >>= f) (e ++ e') w := by
  intro a rest h
  rw [List.append_assoc] at h ⊢
  rw [bind_of_ok (hp a (e' ++ rest) h), hf _ _ (W.drop h), List.length_append, Nat.add_assoc]

theorem Reads.bind_nil {p : Parser ε α} {f : α → Parser ε β} {e : List UInt8} {v : α} {w : β}
    (hp : Reads W p e v) (hf : Reads W (f v) [] w) : Reads W (p >>= f) e w := by
  simpa using hp.bind hf

theorem Reads.byte (eof : ε) (b : UInt8) : Reads W (byte eof) [b] b := fun _ _ _ => rfl

theorem Reads.mono {p : Parser ε α} {e : List UInt8} {v : α} (h : Reads Window.all p e v) :
    Reads W p e v := fun a rest _ => h a rest trivial

theorem Reads.mapError {f : ε → ε'} {p : Parser ε α} {e : List UInt8} {v : α} (h : Reads W p e v) :
    Reads W (Parser.mapError f p) e v := fun a rest hW => mapError_eq_ok.mpr (h a rest hW)

theorem Reads.take_bind {eof : ε} {f : Slice → Parser ε β} {e : List UInt8} {v : β}
    (hf : ∀ a rest, W.mem ⟨a, e ++ rest⟩ →
      f ⟨a, e⟩ ⟨a + e.length, rest⟩ = .ok (v, ⟨a + e.length, rest⟩)) :
    Reads W (Parser.take eof e.length >>= f) e v := by
  intro a rest h
  rw [bind_of_ok (take_append eof a e rest)]
  exact hf a rest h

theorem Reads.peek_bind {p : Parser ε α} {f : α → Parser ε β} {e e' : List UInt8} {v : α} {w : β}
    (hp : Reads W p e v) (hf : Reads W (f v) (e ++ e') w) :
    Reads W (peek p >>= f) (e ++ e') w := by
  intro a rest h
  have hpeek : peek p ⟨a, e ++ e' ++ rest⟩ = .ok (v, ⟨a, e ++ e' ++ rest⟩) := by
    refine peek_eq_ok.mpr ⟨rfl, ⟨a + e.length, e' ++ rest⟩, ?_⟩
    rw [List.append_assoc] at h ⊢
    exact hp a (e' ++ rest) h
  rw [bind_of_ok hpeek]
  exact hf a rest h

theorem Reads.count {p : Parser ε α} {enc : α → List UInt8} :
    ∀ {vs : List α}, (∀ v ∈ vs, Reads W p (enc v) v) →
      Reads W (Parser.count p vs.length) (vs.flatMap enc) vs
  | [], _ => Reads.pure []
  | v :: vs, h => by
    rw [List.flatMap_cons]
    exact (h v (by simp)).bind
      ((Reads.count fun w hw => h w (by simp [hw])).bind_nil (Reads.pure (v :: vs)))

theorem Reads.each {ι : Type} {f : ι → Parser ε α} {enc : ι → List UInt8} {val : ι → α} :
    ∀ {is : List ι}, (∀ i ∈ is, Reads W (f i) (enc i) (val i)) →
      Reads W (Parser.each f is) (is.flatMap enc) (is.map val)
  | [], _ => Reads.pure []
  | i :: is, h => by
    rw [List.flatMap_cons]
    exact (h i (by simp)).bind
      ((Reads.each fun j hj => h j (by simp [hj])).bind_nil (Reads.pure (val i :: is.map val)))

/-! What a parser looks at -/

/-- On success `p` consumed a prefix, and its answer depends on nothing but that prefix. -/
def Scans (W : Window) (p : Parser ε α) : Prop :=
  ∀ s v r, W.mem s → p s = .ok (v, r) → ∃ e, s.After e r ∧
    ∀ rest, W.mem ⟨s.addr, e ++ rest⟩ → p ⟨s.addr, e ++ rest⟩ = .ok (v, ⟨s.addr + e.length, rest⟩)

/-- On success `p` consumed at least one byte. -/
def Progresses (p : Parser ε α) : Prop :=
  ∀ s v r, p s = .ok (v, r) → r.bytes.length < s.bytes.length

theorem Scans.pure (v : α) : Scans W (pure v : Parser ε α) := by
  intro s w r _ h
  cases h
  exact ⟨[], .refl s, fun _ _ => rfl⟩

theorem Scans.fail (e : ε) : Scans W (fail e : Parser ε α) := fun _ _ _ _ h => by cases h

theorem Scans.bind {p : Parser ε α} {f : α → Parser ε β} (hp : Scans W p)
    (hf : ∀ v, Scans W (f v)) : Scans W (p >>= f) := by
  intro s w u hs h
  obtain ⟨v, r, h1, h2⟩ := bind_eq_ok.mp h
  obtain ⟨e, he, hpe⟩ := hp s v r hs h1
  obtain ⟨e', he', hfe⟩ := hf v r w u (W.suffix hs he) h2
  refine ⟨e ++ e', he.trans he', fun rest hW => ?_⟩
  rw [List.append_assoc] at hW ⊢
  have hW' := W.drop hW
  rw [bind_of_ok (hpe _ hW), ← he.2, hfe rest (he.2 ▸ hW'), he.2, List.length_append, Nat.add_assoc]

theorem Scans.byte (eof : ε) : Scans W (byte eof) := by
  intro s v r _ h
  exact ⟨[v], byte_eq_ok.mp h, fun _ _ => rfl⟩

theorem Scans.ite {p q : Parser ε α} {c : Prop} [Decidable c] (hp : c → Scans W p)
    (hq : ¬c → Scans W q) : Scans W (if c then p else q) := by
  split
  · next h => exact hp h
  · next h => exact hq h

theorem Scans.ofExcept (x : Except ε α) : Scans W (ofExcept x) := by
  cases x with
  | ok a => exact Scans.pure a
  | error e => exact Scans.fail e

theorem Scans.take (eof : ε) (n : Nat) : Scans W (Parser.take eof n) := by
  intro s t r _ h
  obtain ⟨hn, ha, hr⟩ := take_eq_ok.mp h
  refine ⟨t.bytes, hr, fun rest _ => ?_⟩
  rw [← hn, take_append, ← ha]

theorem Scans.take_bind {eof : ε} {n : Nat} {f : Slice → Parser ε β}
    (hf : ∀ a b, b.length = n → Scans W (f ⟨a, b⟩)) : Scans W (Parser.take eof n >>= f) := by
  intro s w u hs h
  obtain ⟨t, r, h1, h2⟩ := bind_eq_ok.mp h
  obtain ⟨hn, ha, hr⟩ := take_eq_ok.mp h1
  obtain ⟨e', he', hfe⟩ := hf t.addr t.bytes hn r w u (W.suffix hs hr) h2
  refine ⟨t.bytes ++ e', hr.trans he', fun rest hW => ?_⟩
  rw [List.append_assoc] at hW ⊢
  have hW' := W.drop hW
  rw [← hn, bind_of_ok (take_append eof s.addr t.bytes (e' ++ rest)), ← hr.2, ← ha,
    hfe rest (hr.2 ▸ hW'), hr.2, ← ha, List.length_append, Nat.add_assoc]

theorem Scans.mapError {f : ε → ε'} {p : Parser ε α} (hp : Scans W p) :
    Scans W (Parser.mapError f p) := by
  intro s v r hs h
  obtain ⟨e, he, hpe⟩ := hp s v r hs (mapError_eq_ok.mp h)
  exact ⟨e, he, fun rest hW => mapError_eq_ok.mpr (hpe rest hW)⟩

theorem Scans.count {p : Parser ε α} (hp : Scans W p) : ∀ n, Scans W (Parser.count p n)
  | 0 => Scans.pure []
  | n + 1 => hp.bind fun _ => (Scans.count hp n).bind fun _ => Scans.pure _

theorem Scans.iterate {f : σ → Parser ε σ} (hf : ∀ acc, Scans W (f acc)) :
    ∀ n acc, Scans W (Parser.iterate f n acc)
  | 0, acc => Scans.pure acc
  | n + 1, acc => (hf acc).bind fun acc => Scans.iterate hf n acc

theorem Scans.skipMany {p : Parser ε α} (hp : Scans W p) : ∀ n, Scans W (Parser.skipMany p n)
  | 0 => Scans.pure ()
  | n + 1 => hp.bind fun _ => Scans.skipMany hp n

theorem Scans.each {ι : Type} {f : ι → Parser ε α} (hf : ∀ i, Scans W (f i)) :
    ∀ is, Scans W (Parser.each f is)
  | [] => Scans.pure []
  | i :: is => (hf i).bind fun _ => (Scans.each hf is).bind fun _ => Scans.pure _

/-- Looking ahead is harmless when the parser that follows reads what was looked at. -/
theorem Scans.peek_bind {p : Parser ε α} {f : α → Parser ε β} (hp : Scans W p)
    (hf : ∀ v, Scans W (f v))
    (hcover : ∀ s v t w r, p s = .ok (v, t) → f v s = .ok (w, r) → r.bytes.length ≤ t.bytes.length) :
    Scans W (peek p >>= f) := by
  intro s w r hs h
  obtain ⟨v, s', h1, h2⟩ := bind_eq_ok.mp h
  obtain ⟨rfl, t, h1⟩ := peek_eq_ok.mp h1
  obtain ⟨e, he, hfe⟩ := hf v s' w r hs h2
  obtain ⟨e₀, he₀, hpe⟩ := hp s' v t hs h1
  have hlen := hcover s' v t w r h1 h2
  obtain ⟨e₁, rfl⟩ : ∃ e₁, e = e₀ ++ e₁ := by
    have heq : e₀ ++ t.bytes = e ++ r.bytes := he₀.1.symm.trans he.1
    rcases List.append_eq_append_iff.mp heq with ⟨e₁, h, _⟩ | ⟨e₁, h, h'⟩
    · exact ⟨e₁, h⟩
    · have : e₁ = [] := List.eq_nil_of_length_eq_zero (by rw [h', List.length_append] at hlen; omega)
      exact ⟨[], by rw [h, this, List.append_nil, List.append_nil]⟩
  refine ⟨e₀ ++ e₁, he, fun rest hW => ?_⟩
  have hpeek : peek p ⟨s'.addr, e₀ ++ e₁ ++ rest⟩ = .ok (v, ⟨s'.addr, e₀ ++ e₁ ++ rest⟩) := by
    refine peek_eq_ok.mpr ⟨rfl, ⟨s'.addr + e₀.length, e₁ ++ rest⟩, ?_⟩
    rw [List.append_assoc] at hW ⊢
    exact hpe _ hW
  rw [bind_of_ok hpeek]
  exact hfe rest hW

/-- What was read once is read again in front of any other bytes. -/
theorem Scans.reads {p : Parser ε α} (hp : Scans Window.all p) {s r : Slice} {v : α}
    (h : p s = .ok (v, r)) : ∃ e, s.After e r ∧
      ∀ rest, p ⟨s.addr, e ++ rest⟩ = .ok (v, ⟨s.addr + e.length, rest⟩) := by
  obtain ⟨e, he, hpe⟩ := hp s v r trivial h
  exact ⟨e, he, fun rest => hpe rest trivial⟩

theorem Scans.suffix {p : Parser ε α} (hp : Scans W p) {s r : Slice} {v : α} (hs : W.mem s)
    (h : p s = .ok (v, r)) : ∃ e, s.After e r := by
  obtain ⟨e, he, _⟩ := hp s v r hs h
  exact ⟨e, he⟩

theorem Progresses.byte (eof : ε) : Progresses (byte eof) := by
  intro s v r h
  have := (byte_eq_ok.mp h).1
  simp [this]

end

end Wire
