import R7z.Parsers

/-! Variable-length numbers as a code: what the first byte announces is what is read, no number has a
shorter form than the one that is written, and none another form of the same length. -/

namespace R7z

open Wire Wire.Parser

inductive Halt (ε : Type) where
  | overflow
  | error (e : ε)
deriving DecidableEq, Repr

def checkedSub (a b : UInt8) : Except (Halt NomErr) UInt8 :=
  if b ≤ a then .ok (a - b) else .error .overflow

def checkedShl (a : UInt64) (n : Nat) : Except (Halt NomErr) UInt64 :=
  if n < 64 then .ok (a <<< UInt64.ofNat n) else .error .overflow

def Varuint.checkedAdd (a b : UInt64) : Except (Halt NomErr) UInt64 :=
  if a.toNat + b.toNat < 2 ^ 64 then .ok (a + b) else .error .overflow

def checkedTurns (first : UInt8) : Nat → Nat → UInt8 → UInt64 → Parser (Halt NomErr) UInt64
  | 0, _, _, value => pure value
  | turns + 1, i, mask, value =>
    if first &&& mask = 0 then do
      let low ← ofExcept (checkedSub mask 1)
      let high ← ofExcept (checkedShl (first &&& low).toUInt64 (8 * i))
      ofExcept (Varuint.checkedAdd value high)
    else do
      let next ← mapError .error leU8
      let high ← ofExcept (checkedShl next.toUInt64 (8 * i))
      checkedTurns first turns (i + 1) (mask >>> 1) (value ||| high)

def checkedVaruint64Decode : Parser (Halt NomErr) UInt64 := do
  let first ← mapError .error leU8
  checkedTurns first 8 0 0x80 0

namespace Varuint

/-- The length bits of `first` that are set, from the highest of its `k` lowest bits on. -/
def lengthBits (first : UInt8) : Nat → Nat
  | 0 => 0
  | k + 1 => if first.toNat.testBit k then lengthBits first k + 1 else 0

/-- What the bytes after `first` stand for, with what is left of `first` above them. -/
def tailValue (first : UInt8) : Nat → List UInt8 → Nat
  | 0, _ => 0
  | k + 1, tail =>
    if first.toNat.testBit k then
      match tail with
      | [] => 0
      | b :: tail => b.toNat + 256 * tailValue first k tail
    else first.toNat % 2 ^ k

theorem length_bit_iff (first : UInt8) {k : ℕ} (hk : k < 8) :
    first &&& mask k = 0 ↔ first.toNat.testBit k = false := by
  have hall : ∀ k < 8, ∀ b : Fin 256, UInt8.ofNat b.val &&& mask k = 0 ↔ b.val.testBit k = false := by
    decide +kernel
  have h := hall k hk ⟨first.toNat, first.toNat_lt⟩
  rwa [UInt8.ofNat_toNat] at h

theorem length_bit_set {first : UInt8} {k : ℕ} (hk : k < 8) (h : first.toNat.testBit k = true) :
    ¬first &&& mask k = 0 := by
  intro hclear
  rw [length_bit_iff first hk, h] at hclear
  cases hclear

theorem low_bits (first : UInt8) {k : ℕ} (hk : k < 8) :
    (first &&& (mask k - 1)).toNat = first.toNat % 2 ^ k := by
  have hall : ∀ k < 8, ∀ b : Fin 256, (UInt8.ofNat b.val &&& (mask k - 1)).toNat = b.val % 2 ^ k := by
    decide +kernel
  have h := hall k hk ⟨first.toNat, first.toNat_lt⟩
  rwa [UInt8.ofNat_toNat] at h

theorem mask_pos : ∀ k < 8, 1 ≤ mask k := by decide

theorem mask_next {k : ℕ} (hk : k < 8) : 0 < k → mask k >>> 1 = mask (k - 1) := by
  intro hpos
  obtain ⟨j, rfl⟩ : ∃ j, k = j + 1 := ⟨k - 1, by omega⟩
  exact mask_succ j (by omega)

section
variable {W : Window} {first : UInt8}

theorem turns_reads_tail : ∀ k ≤ 8, ∀ (m : UInt8) (acc : UInt64) (tail : List UInt8),
    (0 < k → m = mask (k - 1)) → acc.toNat < 2 ^ (8 * (8 - k)) → tail.length = lengthBits first k →
    ∃ value, Reads W (varuintTurns first k (8 - k) m acc) tail value ∧
      value.toNat = acc.toNat + tailValue first k tail * 2 ^ (8 * (8 - k)) := by
  intro k
  induction k with
  | zero =>
    intro _ m acc tail _ _ htail
    rw [List.eq_nil_of_length_eq_zero htail]
    exact ⟨acc, .pure acc, by rw [tailValue, Nat.zero_mul, Nat.add_zero]⟩
  | succ k ih =>
    intro hk m acc tail hm hacc htail
    obtain rfl : m = mask k := hm (Nat.succ_pos k)
    have hk : k < 8 := hk
    have hi : 8 - (k + 1) < 8 := by omega
    have hnext : 8 - (k + 1) + 1 = 8 - k := by omega
    unfold varuintTurns tailValue
    unfold lengthBits at htail
    cases hbit : first.toNat.testBit k with
    | false =>
      rw [if_pos ((length_bit_iff first hk).mpr hbit), if_neg Bool.false_ne_true]
      rw [hbit, if_neg Bool.false_ne_true] at htail
      rw [List.eq_nil_of_length_eq_zero htail]
      exact ⟨_, .pure _, by rw [add_byte_toNat hi hacc, low_bits first hk]⟩
    | true =>
      rw [if_neg (length_bit_set hk hbit), if_pos rfl]
      rw [hbit, if_pos rfl] at htail
      obtain ⟨b, tail, rfl⟩ := List.exists_cons_of_length_eq_add_one htail
      have hor := or_byte_toNat (b := b) hi hacc
      have hacc' : (acc ||| (b.toUInt64 <<< UInt64.ofNat (8 * (8 - (k + 1))))).toNat <
          2 ^ (8 * (8 - k)) := by
        rw [hor, ← hnext]
        exact add_byte_lt hacc b.toNat_lt
      obtain ⟨value, hreads, hvalue⟩ := ih hk.le (mask k >>> 1) _ tail (mask_next hk) hacc'
        (Nat.succ.inj htail)
      rw [hnext]
      refine ⟨value, (leU8_reads b).bind hreads, ?_⟩
      rw [hvalue, hor, ← hnext, Nat.mul_succ, Nat.pow_add]
      ring

theorem turns_short : ∀ k ≤ 8, ∀ (m : UInt8) (acc : UInt64) (s : Slice),
    (0 < k → m = mask (k - 1)) → s.bytes.length < lengthBits first k →
    varuintTurns first k (8 - k) m acc s = .error (.error .eof) := by
  intro k
  induction k with
  | zero =>
    intro _ m acc s _ hshort
    exact absurd hshort (Nat.not_lt_zero _)
  | succ k ih =>
    intro hk m acc s hm hshort
    obtain rfl : m = mask k := hm (Nat.succ_pos k)
    have hk : k < 8 := hk
    have hnext : 8 - (k + 1) + 1 = 8 - k := by omega
    unfold lengthBits at hshort
    unfold varuintTurns
    cases hbit : first.toNat.testBit k with
    | false =>
      rw [hbit, if_neg Bool.false_ne_true] at hshort
      exact absurd hshort (Nat.not_lt_zero _)
    | true =>
      rw [hbit, if_pos rfl] at hshort
      rw [if_neg (length_bit_set hk hbit), hnext]
      obtain ⟨addr, bytes⟩ := s
      cases bytes with
      | nil => rfl
      | cons b bytes =>
        have hbyte : leU8 ⟨addr, b :: bytes⟩ = .ok (b, ⟨addr + 1, bytes⟩) := rfl
        rw [bind_of_ok hbyte]
        exact ih hk.le (mask k >>> 1) _ ⟨addr + 1, bytes⟩ (mask_next hk) (Nat.lt_of_succ_lt_succ hshort)

theorem checkedTurns_eq : ∀ k ≤ 8, ∀ (m : UInt8) (acc : UInt64) (s : Slice),
    (0 < k → m = mask (k - 1)) → acc.toNat < 2 ^ (8 * (8 - k)) →
    checkedTurns first k (8 - k) m acc s = mapError .error (varuintTurns first k (8 - k) m acc) s := by
  intro k
  induction k with
  | zero => exact fun _ m acc s _ _ => rfl
  | succ k ih =>
    intro hk m acc s hm hacc
    obtain rfl : m = mask k := hm (Nat.succ_pos k)
    have hk : k < 8 := hk
    have hi : 8 - (k + 1) < 8 := by omega
    have hnext : 8 - (k + 1) + 1 = 8 - k := by omega
    have hshl : ∀ b : UInt8, checkedShl b.toUInt64 (8 * (8 - (k + 1))) =
        .ok (b.toUInt64 <<< UInt64.ofNat (8 * (8 - (k + 1)))) := fun b => if_pos (by omega)
    unfold checkedTurns varuintTurns
    by_cases hbit : first &&& mask k = 0
    · have hsub : checkedSub (mask k) 1 = .ok (mask k - 1) := if_pos (mask_pos k hk)
      have hadd : ∀ b : UInt8, Varuint.checkedAdd acc (b.toUInt64 <<< UInt64.ofNat (8 * (8 - (k + 1)))) =
          .ok (acc + (b.toUInt64 <<< UInt64.ofNat (8 * (8 - (k + 1))))) := by
        intro b
        refine if_pos ?_
        rw [shift_toNat hi]
        exact (add_byte_lt hacc b.toNat_lt).trans_le (Nat.pow_le_pow_right (by decide) (by omega))
      rw [if_pos hbit, if_pos hbit, hsub]
      show (ofExcept (checkedShl (first &&& (mask k - 1)).toUInt64 (8 * (8 - (k + 1)))) >>= _) s = _
      rw [hshl]
      show ofExcept (Varuint.checkedAdd acc _) s = _
      rw [hadd]
      rfl
    · rw [if_neg hbit, if_neg hbit]
      obtain ⟨addr, bytes⟩ := s
      cases bytes with
      | nil => rfl
      | cons b bytes =>
        have hor := or_byte_toNat (b := b) hi hacc
        have hacc' : (acc ||| (b.toUInt64 <<< UInt64.ofNat (8 * (8 - (k + 1))))).toNat <
            2 ^ (8 * (8 - k)) := by
          rw [hor, ← hnext]
          exact add_byte_lt hacc b.toNat_lt
        have hrest := ih hk.le (mask k >>> 1) _ ⟨addr + 1, bytes⟩ (mask_next hk) hacc'
        show (ofExcept (checkedShl b.toUInt64 (8 * (8 - (k + 1)))) >>= _) ⟨addr + 1, bytes⟩ = _
        rw [hshl, hnext]
        exact hrest

theorem tailValue_lt : ∀ (k : ℕ) (tail : List UInt8), lengthBits first k < k →
    tailValue first k tail < 2 ^ (7 * lengthBits first k + (k - 1)) := by
  intro k
  induction k with
  | zero => exact fun tail h => absurd h (Nat.not_lt_zero _)
  | succ k ih =>
    intro tail h
    unfold lengthBits at h ⊢
    unfold tailValue
    cases hbit : first.toNat.testBit k with
    | false =>
      rw [if_neg Bool.false_ne_true, if_neg Bool.false_ne_true, Nat.mul_zero, Nat.zero_add]
      exact Nat.mod_lt _ (Nat.two_pow_pos _)
    | true =>
      rw [hbit, if_pos rfl] at h
      rw [if_pos rfl, if_pos rfl]
      cases tail with
      | nil => exact Nat.two_pow_pos _
      | cons b tail =>
        have hrest := ih tail (Nat.lt_of_succ_lt_succ h)
        have hb := b.toNat_lt
        have hpow : 7 * (lengthBits first k + 1) + (k + 1 - 1) =
            8 + (7 * lengthBits first k + (k - 1)) := by omega
        rw [hpow, Nat.pow_add]
        dsimp only
        omega

/-- The value tells the bytes it was read from among those of one length. -/
theorem tailValue_inj {first' : UInt8} : ∀ (k : ℕ) (tail tail' : List UInt8),
    lengthBits first k = lengthBits first' k → tail.length = lengthBits first k →
    tail'.length = lengthBits first k → tailValue first k tail = tailValue first' k tail' →
    tail = tail' ∧ first.toNat % 2 ^ (k - 1 - lengthBits first k) =
      first'.toNat % 2 ^ (k - 1 - lengthBits first k) := by
  intro k
  induction k with
  | zero =>
    intro tail tail' _ htail htail' _
    rw [List.eq_nil_of_length_eq_zero htail, List.eq_nil_of_length_eq_zero htail']
    refine ⟨rfl, ?_⟩
    show first.toNat % 1 = first'.toNat % 1
    rw [Nat.mod_one, Nat.mod_one]
  | succ k ih =>
    intro tail tail' hbits htail htail' hvalue
    unfold lengthBits at hbits htail htail' ⊢
    unfold tailValue at hvalue
    cases hbit : first.toNat.testBit k with
    | false =>
      rw [hbit, if_neg Bool.false_ne_true] at hbits htail htail' hvalue
      cases hbit' : first'.toNat.testBit k with
      | false =>
        rw [hbit', if_neg Bool.false_ne_true] at hvalue
        rw [List.eq_nil_of_length_eq_zero htail, List.eq_nil_of_length_eq_zero htail']
        exact ⟨rfl, hvalue⟩
      | true =>
        rw [hbit', if_pos rfl] at hbits
        cases hbits
    | true =>
      rw [hbit, if_pos rfl] at hbits htail htail' hvalue
      cases hbit' : first'.toNat.testBit k with
      | false =>
        rw [hbit', if_neg Bool.false_ne_true] at hbits
        cases hbits
      | true =>
        rw [hbit', if_pos rfl] at hbits hvalue
        obtain ⟨b, tail, rfl⟩ := List.exists_cons_of_length_eq_add_one htail
        obtain ⟨b', tail', rfl⟩ := List.exists_cons_of_length_eq_add_one htail'
        dsimp only at hvalue
        have hb := b.toNat_lt
        have hb' := b'.toNat_lt
        obtain ⟨hrest, hlow⟩ := ih tail tail' (Nat.succ.inj hbits) (Nat.succ.inj htail)
          (Nat.succ.inj htail') (by omega)
        have hbyte : b = b' := UInt8.toNat_inj.mp (by omega)
        rw [hbyte, hrest, if_pos rfl, show k + 1 - 1 - (lengthBits first k + 1) = k - 1 - lengthBits first k by omega]
        exact ⟨rfl, hlow⟩

theorem varuintBytes_length : ∀ k ≤ 8, ∀ (value : UInt64) (m lead : UInt8) (rest : List UInt8),
    (0 < k → m = mask (k - 1)) → ∃ j, (varuintBytes k value m lead rest).length = rest.length + 1 + j ∧
      j ≤ k ∧ (0 < j → 2 ^ (7 * (j - 1) + (k - 1)) ≤ value.toNat) := by
  intro k
  induction k with
  | zero =>
    intro _ value m lead rest _
    exact ⟨0, rfl, le_rfl, fun h => absurd h (Nat.lt_irrefl 0)⟩
  | succ k ih =>
    intro hk value m lead rest hm
    obtain rfl : m = mask k := hm (Nat.succ_pos k)
    have hk : k < 8 := hk
    unfold varuintBytes
    by_cases hlt : value < (mask k).toUInt64
    · rw [if_pos hlt]
      exact ⟨0, rfl, Nat.zero_le _, fun h => absurd h (Nat.lt_irrefl 0)⟩
    · rw [if_neg hlt]
      have hge : 2 ^ k ≤ value.toNat := by
        rw [← mask_toNat k hk]
        exact UInt64.le_iff_toNat_le.mp (UInt64.not_lt.mp hlt)
      obtain ⟨j, hlen, hj, hneeds⟩ := ih hk.le (value >>> 8) (mask k >>> 1) (lead ||| mask k)
        (rest ++ [(value &&& 0xFF).toUInt8]) (mask_next hk)
      refine ⟨j + 1, ?_, Nat.succ_le_succ hj, fun _ => ?_⟩
      · rw [hlen, List.length_append, List.length_singleton]
        omega
      · rcases Nat.eq_zero_or_pos j with rfl | hpos
        · rw [Nat.mul_zero, Nat.zero_add]
          exact hge
        · have hshift : (value >>> 8).toNat = value.toNat / 256 := by
            rw [UInt64.toNat_shiftRight]
            exact Nat.shiftRight_eq_div_pow value.toNat 8
          have hpow : 7 * (j + 1 - 1) + (k + 1 - 1) = 7 * (j - 1) + (k - 1) + 8 := by omega
          have hquot := hneeds hpos
          rw [hshift, Nat.le_div_iff_mul_le (by decide)] at hquot
          rw [hpow, Nat.pow_add]
          exact hquot

theorem first_eq (first : UInt8) : first.toNat =
    256 - 2 ^ (8 - lengthBits first 8) + first.toNat % 2 ^ (7 - lengthBits first 8) := by
  have hall : ∀ b : Fin 256, b.val = 256 - 2 ^ (8 - lengthBits (UInt8.ofNat b.val) 8) +
      b.val % 2 ^ (7 - lengthBits (UInt8.ofNat b.val) 8) := by
    decide +kernel
  have h := hall ⟨first.toNat, first.toNat_lt⟩
  rwa [UInt8.ofNat_toNat] at h

end

end Varuint

open Varuint

/-- How many bytes a number takes that starts with `first`. -/
def announcedLength (first : UInt8) : Nat := lengthBits first 8 + 1

example : announcedLength 0x7F = 1 ∧ announcedLength 0xBF = 2 ∧ announcedLength 0xFE = 8 ∧
    announcedLength 0xFF = 9 := by decide

section
variable {W : Window}

theorem decode_reads {first : UInt8} {tail : List UInt8} (h : tail.length = lengthBits first 8) :
    ∃ value, Reads W sevenzipVaruint64Decode (first :: tail) value ∧
      value.toNat = tailValue first 8 tail := by
  obtain ⟨value, hreads, hvalue⟩ := turns_reads_tail (W := W) 8 le_rfl 0x80 0 tail (fun _ => by decide)
    (by decide) h
  refine ⟨value, (leU8_reads first).bind hreads, ?_⟩
  rw [hvalue, Nat.sub_self, Nat.mul_zero, Nat.pow_zero, Nat.mul_one]
  exact Nat.zero_add _

theorem decode_short {addr : ℕ} {first : UInt8} {rest : List UInt8}
    (h : (first :: rest).length < announcedLength first) :
    sevenzipVaruint64Decode ⟨addr, first :: rest⟩ = .error (.error .eof) :=
  turns_short 8 le_rfl 0x80 0 ⟨addr + 1, rest⟩ (fun _ => by decide) (Nat.lt_of_succ_lt_succ h)

theorem decode_nil (addr : ℕ) : sevenzipVaruint64Decode ⟨addr, []⟩ = .error (.error .eof) := rfl

theorem decode_full (addr : ℕ) {first : UInt8} {rest : List UInt8}
    (h : announcedLength first ≤ (first :: rest).length) : ∃ value,
    sevenzipVaruint64Decode ⟨addr, first :: rest⟩ =
      .ok (value, ⟨addr + announcedLength first, (first :: rest).drop (announcedLength first)⟩) ∧
    value.toNat = tailValue first 8 (rest.take (lengthBits first 8)) := by
  have htake : (rest.take (lengthBits first 8)).length = lengthBits first 8 := by
    rw [List.length_take]
    exact min_eq_left (Nat.le_of_succ_le_succ h)
  obtain ⟨value, hreads, hvalue⟩ := decode_reads (W := Window.all) htake
  have hrun := hreads addr (rest.drop (lengthBits first 8)) trivial
  rw [List.cons_append, List.take_append_drop, List.length_cons, htake] at hrun
  exact ⟨value, hrun, hvalue⟩

theorem checkedVaruint64Decode_eq :
    checkedVaruint64Decode = mapError .error sevenzipVaruint64Decode := by
  funext s
  obtain ⟨addr, bytes⟩ := s
  cases bytes with
  | nil => rfl
  | cons first bytes =>
    exact checkedTurns_eq 8 le_rfl 0x80 0 ⟨addr + 1, bytes⟩ (fun _ => by decide) (by decide)

/-- What is written announces its own length. -/
theorem encode_announces (value : UInt64) : ∃ first tail,
    sevenzipVaruint64Encode value = first :: tail ∧ tail.length = lengthBits first 8 ∧
      value.toNat = tailValue first 8 tail := by
  have hpos := (sevenzipVaruint64Encode_length value).1
  have hreads := sevenzipVaruint64Decode_reads (W := Window.all) value 0 [] trivial
  cases hencode : sevenzipVaruint64Encode value with
  | nil =>
    rw [hencode] at hpos
    exact absurd hpos (Nat.lt_irrefl 0)
  | cons first tail =>
    rw [hencode, List.append_nil] at hreads
    rcases Nat.lt_or_ge (first :: tail).length (announcedLength first) with hshort | hfull
    · rw [decode_short hshort] at hreads
      cases hreads
    · obtain ⟨read, hrun, hvalue⟩ := decode_full 0 hfull
      rw [hrun] at hreads
      obtain ⟨hread, hleft⟩ := Prod.mk.inj (Except.ok.inj hreads)
      have haddr : 0 + announcedLength first = 0 + (tail.length + 1) := congrArg Slice.addr hleft
      have hlen : tail.length = lengthBits first 8 := by
        unfold announcedLength at haddr
        omega
      refine ⟨first, tail, rfl, hlen, ?_⟩
      rw [← hread, hvalue, List.take_of_length_le hlen.le]

theorem encode_shortest {addr : ℕ} {bytes : List UInt8} {value : UInt64} {r : Slice}
    (h : sevenzipVaruint64Decode ⟨addr, bytes⟩ = .ok (value, r)) : ∃ e, bytes = e ++ r.bytes ∧
      (e = sevenzipVaruint64Encode value ∨ (sevenzipVaruint64Encode value).length < e.length) := by
  cases bytes with
  | nil => cases h
  | cons first rest =>
    rcases Nat.lt_or_ge (first :: rest).length (announcedLength first) with hshort | hfull
    · rw [decode_short hshort] at h
      cases h
    obtain ⟨read, hrun, hvalue⟩ := decode_full addr hfull
    rw [hrun] at h
    obtain ⟨hread, hleft⟩ := Prod.mk.inj (Except.ok.inj h)
    have hrest : r.bytes = rest.drop (lengthBits first 8) := congrArg Slice.bytes hleft.symm
    generalize htail : rest.take (lengthBits first 8) = tail at hvalue
    have hlen : tail.length = lengthBits first 8 := by
      rw [← htail, List.length_take]
      exact min_eq_left (Nat.le_of_succ_le_succ hfull)
    refine ⟨first :: tail, ?_, ?_⟩
    · rw [hrest, ← htail, List.cons_append, List.take_append_drop]
    rw [hread] at hvalue
    obtain ⟨first', tail', hencode, hlen', hvalue'⟩ := encode_announces value
    obtain ⟨j, hwritten, hj, hneeds⟩ := varuintBytes_length 8 le_rfl value 0x80 0 [] fun _ => by decide
    have hcount : (sevenzipVaruint64Encode value).length = 0 + 1 + j := hwritten
    have htailLen : tail'.length = j := by
      rw [hencode, List.length_cons] at hcount
      omega
    rcases lt_trichotomy (lengthBits first 8) j with hlt | heq | hgt
    · -- Fewer bytes than are written could not hold the value.
      have hsmall := tailValue_lt 8 tail (hlt.trans_le hj)
      have hlarge := hneeds (Nat.zero_lt_of_lt hlt)
      have hpow : 2 ^ (7 * lengthBits first 8 + (8 - 1)) ≤ 2 ^ (7 * (j - 1) + (8 - 1)) :=
        Nat.pow_le_pow_right (by decide) (by omega)
      omega
    · left
      have hbits : lengthBits first 8 = lengthBits first' 8 := by omega
      obtain ⟨hsame, hlow⟩ := tailValue_inj 8 tail tail' hbits hlen (by omega)
        (hvalue.symm.trans hvalue')
      have hfirst : first = first' := by
        apply UInt8.toNat_inj.mp
        rw [first_eq first, first_eq first', ← hbits]
        exact congrArg (_ + ·) hlow
      rw [hencode, hsame, hfirst]
    · right
      rw [hcount, List.length_cons, hlen]
      omega

/-- A strict prefix of what is written is too short for what it announces. -/
theorem decode_prefix {value : UInt64} {p : List UInt8} (addr : ℕ)
    (hp : p <+: sevenzipVaruint64Encode value) (hne : p ≠ sevenzipVaruint64Encode value) :
    sevenzipVaruint64Decode ⟨addr, p⟩ = .error (.error .eof) := by
  obtain ⟨first, tail, hencode, hlen, -⟩ := encode_announces value
  have hshorter : p.length < (sevenzipVaruint64Encode value).length :=
    lt_of_le_of_ne hp.length_le fun h => hne (hp.eq_of_length h)
  rw [hencode] at hp hshorter
  cases p with
  | nil => exact decode_nil addr
  | cons b p =>
    obtain ⟨rfl, -⟩ := List.cons_prefix_cons.mp hp
    apply decode_short
    unfold announcedLength
    rw [← hlen]
    exact hshorter

end

/-- The code of variable-length numbers: it is read back, nothing shorter nor anything else of the same
length is read as the same number, a strict prefix ends too early, and for every input the decoder takes
as many bytes as the first one announces, without any overflow. -/
theorem varuint64_codec :
    (∀ value addr rest, sevenzipVaruint64Decode ⟨addr, sevenzipVaruint64Encode value ++ rest⟩ =
      .ok (value, ⟨addr + (sevenzipVaruint64Encode value).length, rest⟩)) ∧
    (∀ value addr bytes r, sevenzipVaruint64Decode ⟨addr, bytes⟩ = .ok (value, r) →
      ∃ e, bytes = e ++ r.bytes ∧
        (e = sevenzipVaruint64Encode value ∨ (sevenzipVaruint64Encode value).length < e.length)) ∧
    (∀ value addr p, p <+: sevenzipVaruint64Encode value → p ≠ sevenzipVaruint64Encode value →
      sevenzipVaruint64Decode ⟨addr, p⟩ = .error (.error .eof)) ∧
    (∀ s, checkedVaruint64Decode s ≠ .error .overflow ∧
      checkedVaruint64Decode s = mapError .error sevenzipVaruint64Decode s) ∧
    (∀ addr, sevenzipVaruint64Decode ⟨addr, []⟩ = .error (.error .eof)) ∧
    ∀ addr first rest,
      if announcedLength first ≤ (first :: rest).length then
        ∃ value, sevenzipVaruint64Decode ⟨addr, first :: rest⟩ =
          .ok (value, ⟨addr + announcedLength first, (first :: rest).drop (announcedLength first)⟩)
      else sevenzipVaruint64Decode ⟨addr, first :: rest⟩ = .error (.error .eof) := by
  refine ⟨?_, ?_, ?_, ?_, decode_nil, ?_⟩
  · intro value addr rest
    exact sevenzipVaruint64Decode_reads (W := Window.all) value addr rest trivial
  · intro value addr bytes r h
    exact encode_shortest h
  · intro value addr p hp hne
    exact decode_prefix addr hp hne
  · intro s
    rw [checkedVaruint64Decode_eq]
    refine ⟨fun h => ?_, rfl⟩
    unfold mapError at h
    split at h
    · cases h
    · cases h
  · intro addr first rest
    split
    · rename_i hfull
      obtain ⟨value, hrun, -⟩ := decode_full addr hfull
      exact ⟨value, hrun⟩
    · rename_i hshort
      exact decode_short (Nat.lt_of_not_le hshort)

theorem varuint64_codec_truncated : sevenzipVaruint64Decode ⟨0, [0xBF]⟩ = .error (.error .eof) :=
  varuint64_codec.2.2.1 0x3FFF 0 [0xBF] ⟨[0xFF], by decide⟩ (by decide)

end R7z
