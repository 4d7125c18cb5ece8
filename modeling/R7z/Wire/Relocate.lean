import R7z.Wire.Loop

/-! Parsers whose answer does not depend on where the bytes lie. -/

namespace Wire

open Wire.Parser

section
variable {ε α β σ : Type}

/-- What `p` reads in one place it reads in every place, whatever follows. -/
def Portable (p : Parser ε α) : Prop :=
  ∀ s v r, p s = .ok (v, r) → ∃ e, s.After e r ∧ Reads Window.all p e v

theorem Portable.pure (v : α) : Portable (Pure.pure v : Parser ε α) := by
  intro s w r h
  cases h
  exact ⟨[], .refl s, .pure v⟩

theorem Portable.fail (e : ε) : Portable (Parser.fail e : Parser ε α) := fun _ _ _ h => by cases h

theorem Portable.bind {p : Parser ε α} {f : α → Parser ε β} (hp : Portable p)
    (hf : ∀ v, Portable (f v)) : Portable (p >>= f) := by
  intro s w u h
  obtain ⟨v, r, h1, h2⟩ := bind_eq_ok.mp h
  obtain ⟨e, he, hpe⟩ := hp s v r h1
  obtain ⟨e', he', hfe⟩ := hf v r w u h2
  exact ⟨e ++ e', he.trans he', hpe.bind hfe⟩

theorem Portable.byte (eof : ε) : Portable (Parser.byte eof) := by
  intro s v r h
  exact ⟨[v], byte_eq_ok.mp h, .byte eof v⟩

theorem Portable.ite {p q : Parser ε α} {c : Prop} [Decidable c] (hp : Portable p)
    (hq : Portable q) : Portable (if c then p else q) := by
  split
  · exact hp
  · exact hq

theorem Portable.take_bind {eof : ε} {n : ℕ} {f : Slice → Parser ε β}
    (hbytes : ∀ a b bs, f ⟨a, bs⟩ = f ⟨b, bs⟩) (hf : ∀ t, Portable (f t)) :
    Portable (Parser.take eof n >>= f) := by
  intro s w u h
  obtain ⟨t, r, h1, h2⟩ := bind_eq_ok.mp h
  obtain ⟨hn, _, hr⟩ := take_eq_ok.mp h1
  obtain ⟨e, he, hfe⟩ := hf t r w u h2
  refine ⟨t.bytes ++ e, hr.trans he, ?_⟩
  intro a rest _
  rw [List.append_assoc, ← hn, bind_of_ok (take_append eof a t.bytes (e ++ rest)),
    hbytes a t.addr t.bytes, hfe _ _ trivial, List.length_append, Nat.add_assoc]

theorem Portable.count {p : Parser ε α} (hp : Portable p) (n : ℕ) :
    Portable (Parser.count p n) := by
  induction n with
  | zero => exact Portable.pure []
  | succ n ih => exact hp.bind fun v => ih.bind fun vs => Portable.pure (v :: vs)

theorem Portable.iterate {f : σ → Parser ε σ} (hf : ∀ acc, Portable (f acc)) (n : ℕ) :
    ∀ acc, Portable (Parser.iterate f n acc) := by
  induction n with
  | zero => exact fun acc => Portable.pure acc
  | succ n ih => exact fun acc => (hf acc).bind fun acc => ih acc

theorem Portable.reads {p : Parser ε α} (hp : Portable p) {s : Slice} {v : α} {a : ℕ}
    (h : p s = .ok (v, ⟨a, []⟩)) : Reads Window.all p s.bytes v := by
  obtain ⟨e, he, hread⟩ := hp s v _ h
  have hbytes : s.bytes = e := by rw [he.1, List.append_nil]
  rwa [hbytes]

end

end Wire
