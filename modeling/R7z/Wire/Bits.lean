import Mathlib.Data.List.GetD
import R7z.Wire.Loop

/-! Bit vectors stored most significant bit first, and the blocks they select: a list of optional
values is written as the bits that say which are present, followed by the present values. -/

namespace Wire

open Wire.Parser

def bitAt (bytes : List UInt8) (i : Nat) : Bool :=
  match bytes[i / 8]? with
  | some b => (b >>> UInt8.ofNat (7 - i % 8)) &&& 1 == 1
  | none => false

def setBit (bytes : List UInt8) (i : Nat) : List UInt8 :=
  bytes.modify (i / 8) (· ||| (1 <<< UInt8.ofNat (7 - i % 8)))

def packBits (values : List Bool) : List UInt8 :=
  values.zipIdx.foldl (fun out (value, idx) => if value then setBit out idx else out)
    (List.replicate ((values.length + 7) / 8) 0)

set_option maxRecDepth 4096 in
private theorem byte_bit (b : UInt8) (i : Fin 8) :
    ((b >>> UInt8.ofNat i.val) &&& 1 == 1) = b.toNat.testBit i.val := by
  cases b with
  | ofBitVec b =>
    cases b with
    | ofFin b =>
      revert b i
      decide +kernel

private theorem bit_toNat : ∀ i < 8, (1 <<< UInt8.ofNat i : UInt8).toNat = 2 ^ i := by decide

private theorem bitAt_byte (bytes : List UInt8) (i : ℕ) :
    bitAt bytes i = (bytes[i / 8]?.any fun b => b.toNat.testBit (7 - i % 8)) := by
  unfold bitAt
  cases bytes[i / 8]? with
  | none => rfl
  | some b => exact byte_bit b ⟨7 - i % 8, by omega⟩

@[simp] theorem setBit_length (bytes : List UInt8) (i : ℕ) :
    (setBit bytes i).length = bytes.length := List.length_modify ..

theorem bitAt_setBit {bytes : List UInt8} {i : ℕ} (hi : i / 8 < bytes.length) (j : ℕ) :
    bitAt (setBit bytes i) j = (decide (i = j) || bitAt bytes j) := by
  rw [bitAt_byte, bitAt_byte, setBit, List.getElem?_modify]
  by_cases hb : i / 8 = j / 8
  · simp only [if_pos hb]
    have hj : j / 8 < bytes.length := hb ▸ hi
    have hbit : (7 - i % 8 = 7 - j % 8) ↔ i = j := by omega
    rw [List.getElem?_eq_getElem hj]
    simp only [Option.map_eq_map, Option.map_some, Option.any_some, UInt8.toNat_or,
      bit_toNat _ (show 7 - i % 8 < 8 by omega), Nat.testBit_or, Nat.testBit_two_pow, hbit,
      Bool.or_comm]
  · have hne : i ≠ j := fun h => hb (h ▸ rfl)
    simp only [if_neg hb, id_map', decide_eq_false hne, Bool.false_or]

theorem bitAt_replicate (n i : ℕ) : bitAt (List.replicate n 0) i = false := by
  rw [bitAt_byte, List.getElem?_replicate]
  split <;> simp

private theorem packBits_foldl (values : List Bool) : ∀ (k : ℕ) (out : List UInt8),
    (∀ i < values.length, (k + i) / 8 < out.length) →
    let out' := (values.zipIdx k).foldl
      (fun out (value, idx) => if value then setBit out idx else out) out
    out'.length = out.length ∧ ∀ j, bitAt out' j =
      (bitAt out j || (decide (k ≤ j) && values.getD (j - k) false)) := by
  induction values with
  | nil => simp
  | cons v vs ih =>
    intro k out hlen
    have hk : k / 8 < out.length := by simpa using hlen 0 (by simp)
    have hvs : ∀ i < vs.length, (k + 1 + i) / 8 < out.length := fun i hi => by
      simpa [Nat.add_assoc, Nat.add_comm 1] using hlen (i + 1) (by simpa using hi)
    set out₁ := if v then setBit out k else out with hout
    have hlen₁ : out₁.length = out.length := by rw [hout]; split <;> simp
    have hbit : ∀ j, bitAt out₁ j = ((decide (k = j) && v) || bitAt out j) := by
      intro j
      cases v with
      | false => simp [hout]
      | true => rw [hout, if_pos rfl, bitAt_setBit hk, Bool.and_true]
    obtain ⟨h1, h2⟩ := ih (k + 1) out₁ (by rwa [hlen₁])
    refine ⟨h1.trans hlen₁, fun j => ?_⟩
    refine (h2 j).trans ?_
    rw [hbit j]
    rcases lt_trichotomy k j with hj | rfl | hj
    · obtain ⟨m, rfl⟩ := Nat.exists_eq_add_of_lt hj
      have hm : k + m + 1 - (k + 1) = m := by omega
      have hm' : k + m + 1 - k = m + 1 := by omega
      simp [hm, hm', show k ≠ k + m + 1 by omega, show k + 1 ≤ k + m + 1 by omega,
        show k ≤ k + m + 1 by omega]
    · simp [Bool.or_comm]
    · simp [show k ≠ j by omega, show ¬k + 1 ≤ j by omega, show ¬k ≤ j by omega]

@[simp] theorem packBits_length (values : List Bool) :
    (packBits values).length = (values.length + 7) / 8 := by
  have h := (packBits_foldl values 0 (List.replicate ((values.length + 7) / 8) 0)
    (fun i hi => by rw [List.length_replicate]; omega)).1
  rwa [List.length_replicate] at h

theorem bitAt_packBits (values : List Bool) (i : ℕ) :
    bitAt (packBits values) i = values.getD i false := by
  have h := (packBits_foldl values 0 (List.replicate ((values.length + 7) / 8) 0)
    (fun i hi => by rw [List.length_replicate]; omega)).2 i
  refine h.trans ?_
  rw [bitAt_replicate, Bool.false_or, Nat.sub_zero, decide_eq_true (Nat.zero_le i), Bool.true_and]

theorem packBits_append_false (values : List Bool) (k : ℕ)
    (h : (values.length + k + 7) / 8 = (values.length + 7) / 8) :
    packBits (values ++ List.replicate k false) = packBits values := by
  have hclear (start n : ℕ) (out : List UInt8) : ((List.replicate n false).zipIdx start).foldl
      (fun out (value, idx) => if value then setBit out idx else out) out = out := by
    induction n generalizing start with
    | zero => rfl
    | succ n ih => exact ih (start + 1)
  unfold packBits
  rw [List.length_append, List.length_replicate, h, List.zipIdx_append, List.foldl_append]
  exact hclear _ _ _

theorem bitAt_append_left (bytes rest : List UInt8) {i : ℕ} (hi : i / 8 < bytes.length) :
    bitAt (bytes ++ rest) i = bitAt bytes i := by
  unfold bitAt
  rw [List.getElem?_append_left hi]

section
variable {ε ε' α β γ δ : Type} {W : Window}

def Parser.optional (defined : Bool) (p : Parser ε α) : Parser ε (Option α) :=
  if defined then do
    let a ← p
    pure (some a)
  else pure none

def Parser.optionals (defined : Nat → Bool) (p : Parser ε α) (n : Nat) : Parser ε (List (Option α)) :=
  each (fun i => optional (defined i) p) (List.range n)

private theorem map_getD_range (vs : List α) (d : α) :
    (List.range vs.length).map (fun i => vs.getD i d) = vs := by
  apply List.ext_getElem
  · simp
  · intro i h _
    have hi : i < vs.length := by simpa using h
    simp [hi]

theorem Reads.optional {p : Parser ε α} {enc : α → List UInt8} {o : Option α}
    (hp : ∀ v, o = some v → Reads W p (enc v) v) :
    Reads W (Parser.optional o.isSome p) ((o.map enc).getD []) o := by
  cases o with
  | none => exact .pure none
  | some v => exact (hp v rfl).bind_nil (.pure (some v))

private theorem flatMap_optional (enc : α → List UInt8) (vs : List (Option α)) :
    vs.flatMap (fun o => (o.map enc).getD []) = (vs.filterMap id).flatMap enc := by
  induction vs with
  | nil => rfl
  | cons o os ih => cases o <;> simp [ih]

theorem Reads.optionals {defined : Nat → Bool} {p : Parser ε α} {enc : α → List UInt8}
    {vs : List (Option α)} (hd : ∀ i < vs.length, defined i = (vs.getD i none).isSome)
    (hp : ∀ v, some v ∈ vs → Reads W p (enc v) v) :
    Reads W (Parser.optionals defined p vs.length) ((vs.filterMap id).flatMap enc) vs := by
  have hread : ∀ i ∈ List.range vs.length, Reads W (Parser.optional (defined i) p)
      (((vs.getD i none).map enc).getD []) (vs.getD i none) := by
    intro i hi
    have hi : i < vs.length := List.mem_range.mp hi
    rw [hd i hi]
    refine Reads.optional fun v hv => hp v ?_
    rw [← hv, List.getD_eq_getElem _ _ hi]
    exact List.getElem_mem hi
  have h := Reads.each hread
  rw [map_getD_range] at h
  have henc : (List.range vs.length).flatMap (fun i => ((vs.getD i none).map enc).getD []) =
      (vs.filterMap id).flatMap enc := by
    rw [← flatMap_optional, ← List.flatMap_map (fun i => vs.getD i none) (fun o => (o.map enc).getD []),
      map_getD_range]
  rwa [henc] at h

theorem Scans.optional {p : Parser ε α} (hp : Scans W p) (defined : Bool) :
    Scans W (Parser.optional defined p) := .ite (fun _ => hp.bind fun _ => .pure _) fun _ => .pure none

theorem Scans.optionals {p : Parser ε α} (hp : Scans W p) (defined : Nat → Bool) (n : Nat) :
    Scans W (Parser.optionals defined p n) := Scans.each (fun i => hp.optional (defined i)) _

/-- `p` reads `k` bytes, whatever they are, and fails only when there are fewer. -/
def FixedWidth (p : Parser ε α) (k : Nat) : Prop :=
  ∀ s : Slice, (k ≤ s.bytes.length → ∃ v, p s = .ok (v, ⟨s.addr + k, s.bytes.drop k⟩)) ∧
    (s.bytes.length < k → ∃ e, p s = .error e)

theorem FixedWidth.pure (v : α) : FixedWidth (pure v : Parser ε α) 0 :=
  fun _ => ⟨fun _ => ⟨v, rfl⟩, fun h => absurd h (Nat.not_lt_zero _)⟩

theorem FixedWidth.byte (eof : ε) : FixedWidth (byte eof) 1 := by
  rintro ⟨a, bs⟩
  cases bs with
  | nil => exact ⟨fun h => absurd h (by simp), fun _ => ⟨eof, rfl⟩⟩
  | cons b bs => exact ⟨fun _ => ⟨b, rfl⟩, fun h => absurd h (by simp)⟩

theorem FixedWidth.take (eof : ε) (n : Nat) : FixedWidth (take eof n) n := by
  intro s
  refine ⟨fun h => ⟨⟨s.addr, s.bytes.take n⟩, if_pos h⟩, fun h => ⟨eof, if_neg (by omega)⟩⟩

theorem FixedWidth.bind {p : Parser ε α} {f : α → Parser ε β} {j k : Nat} (hp : FixedWidth p j)
    (hf : ∀ v, FixedWidth (f v) k) : FixedWidth (p >>= f) (j + k) := by
  intro s
  by_cases hj : j ≤ s.bytes.length
  · obtain ⟨v, hv⟩ := (hp s).1 hj
    rw [bind_of_ok hv]
    have h := hf v ⟨s.addr + j, s.bytes.drop j⟩
    simp only [List.length_drop, List.drop_drop] at h
    refine ⟨fun hk => ?_, fun hk => h.2 (by omega)⟩
    rw [← Nat.add_assoc]
    exact h.1 (by omega)
  · obtain ⟨e, he⟩ := (hp s).2 (by omega)
    exact ⟨fun h => absurd h (by omega), fun _ => ⟨e, bind_of_error he⟩⟩

theorem FixedWidth.optionals {p : Parser ε α} {k : Nat} (hp : FixedWidth p k) (defined : Nat → Bool)
    (n : Nat) : FixedWidth (Parser.optionals defined p n) ((List.range n).countP defined * k) := by
  unfold Parser.optionals
  induction List.range n with
  | nil =>
    rw [List.countP_nil, Nat.zero_mul]
    exact FixedWidth.pure []
  | cons i is ih =>
    have hrest (o : Option α) := ih.bind fun os => FixedWidth.pure (ε := ε) (o :: os)
    cases hd : defined i with
    | false =>
      rw [List.countP_cons_of_neg (by simp [hd]), ← Nat.zero_add (_ * k)]
      refine FixedWidth.bind (f := fun o => _) ?_ hrest
      dsimp only
      rw [hd]
      exact FixedWidth.pure none
    | true =>
      rw [List.countP_cons_of_pos hd, Nat.succ_mul, Nat.add_comm]
      refine FixedWidth.bind (f := fun o => _) ?_ hrest
      dsimp only
      rw [hd]
      exact hp.bind fun a => FixedWidth.pure (some a)

theorem FixedWidth.left {p : Parser ε α} {k : Nat} {s r : Slice} {v : α} (hp : FixedWidth p k)
    (h : p s = .ok (v, r)) : r.bytes.length + k = s.bytes.length := by
  rcases Nat.lt_or_ge s.bytes.length k with hk | hk
  · obtain ⟨err, herr⟩ := (hp s).2 hk
    rw [herr] at h
    cases h
  · obtain ⟨w, hw⟩ := (hp s).1 hk
    rw [hw] at h
    cases h
    rw [List.length_drop]
    omega

theorem FixedWidth.length_eq {p : Parser ε α} {k : Nat} {e : List UInt8} {v : α}
    (hp : FixedWidth p k) (h : Reads Window.all p e v) : e.length = k := by
  have hread := h 0 [] trivial
  rcases Nat.lt_or_ge (e ++ []).length k with hk | hk
  · obtain ⟨err, herr⟩ := (hp ⟨0, e ++ []⟩).2 hk
    rw [herr] at hread
    cases hread
  · obtain ⟨w, hw⟩ := (hp ⟨0, e ++ []⟩).1 hk
    rw [hw] at hread
    have haddr := congrArg Slice.addr (Prod.ext_iff.mp (Except.ok.inj hread)).2
    simpa using haddr.symm

theorem FixedWidth.agrees {p : Parser ε α} {q : Parser ε' β} {k : Nat} (hp : FixedWidth p k)
    (hq : FixedWidth q k) : Agrees W (fun _ _ => True) p q := by
  intro s _
  rcases Nat.lt_or_ge s.bytes.length k with h | h
  · obtain ⟨e, he⟩ := (hp s).2 h
    obtain ⟨e', he'⟩ := (hq s).2 h
    rw [he, he']
    exact .error
  · obtain ⟨v, hv⟩ := (hp s).1 h
    obtain ⟨w, hw⟩ := (hq s).1 h
    rw [hv, hw]
    have hlen : (s.bytes.take k).length = k := by simpa using h
    exact .ok trivial ⟨(List.take_append_drop k s.bytes).symm, by rw [hlen]⟩

end

end Wire
