import R7z.Wire.Bits

/-! The primitive fields of a 7z header: fixed-width little-endian numbers, variable-length numbers,
property tags, and the borrowed view of a slice inside its backing buffer. -/

namespace R7z

open Wire Wire.Parser

inductive ErrorKind where
  | eof | satisfy | verify | tooLarge
deriving DecidableEq, Repr

inductive NomErr where
  | error (code : ErrorKind)
  | failure (code : ErrorKind)
deriving DecidableEq, Repr

def NomErr.code : NomErr → ErrorKind
  | .error code => code
  | .failure code => code

abbrev NomParser (α : Type) : Type := Parser NomErr α

def usizeLimit : Nat := 2 ^ 64

def leU8 : NomParser UInt8 := byte (.error .eof)

def takeBytes (n : Nat) : NomParser Slice := take (.error .eof) n

def leBytes : Nat → NomParser Nat
  | 0 => pure 0
  | n + 1 => do
    let b ← leU8
    let high ← leBytes n
    pure (b.toNat + 256 * high)

def leU32 : NomParser UInt32 := do
  let n ← leBytes 4
  pure (UInt32.ofNat n)

def leU64 : NomParser UInt64 := do
  let n ← leBytes 8
  pure (UInt64.ofNat n)

def toLeBytes : Nat → Nat → List UInt8
  | 0, _ => []
  | n + 1, v => UInt8.ofNat v :: toLeBytes n (v / 256)

@[simp] theorem toLeBytes_length : ∀ n v, (toLeBytes n v).length = n
  | 0, _ => rfl
  | n + 1, v => congrArg (· + 1) (toLeBytes_length n (v / 256))

section
variable {W : Window}

theorem leU8_reads (b : UInt8) : Reads W leU8 [b] b := Reads.byte _ b

theorem leBytes_reads : ∀ n v, v < 256 ^ n → Reads W (leBytes n) (toLeBytes n v) v
  | 0, v, h => by
    obtain rfl : v = 0 := by simpa using h
    exact .pure 0
  | n + 1, v, h => by
    have hv : v / 256 < 256 ^ n := by rw [Nat.pow_succ] at h; omega
    have hb : (UInt8.ofNat v).toNat + 256 * (v / 256) = v := by
      rw [UInt8.toNat_ofNat']
      omega
    refine (leU8_reads (UInt8.ofNat v)).bind ?_
    refine (leBytes_reads n (v / 256) hv).bind_nil ?_
    rw [hb]
    exact .pure v

theorem leU32_reads (v : UInt32) : Reads W leU32 (toLeBytes 4 v.toNat) v := by
  refine (leBytes_reads 4 v.toNat v.toNat_lt).bind_nil ?_
  simpa only [UInt32.ofNat_toNat] using Reads.pure v

theorem leU64_reads (v : UInt64) : Reads W leU64 (toLeBytes 8 v.toNat) v := by
  refine (leBytes_reads 8 v.toNat v.toNat_lt).bind_nil ?_
  simpa only [UInt64.ofNat_toNat] using Reads.pure v

theorem leU8_scans : Scans W leU8 := Scans.byte _

theorem leBytes_scans : ∀ n, Scans W (leBytes n)
  | 0 => .pure 0
  | n + 1 => leU8_scans.bind fun _ => (leBytes_scans n).bind fun _ => .pure _

theorem leU32_scans : Scans W leU32 := (leBytes_scans 4).bind fun _ => .pure _

end

/-! Variable-length numbers -/

/-- The decoder's turns: `mask` selects the next length bit of `first`, and a set bit means that one
more value byte follows. -/
def varuintTurns (first : UInt8) : Nat → Nat → UInt8 → UInt64 → NomParser UInt64
  | 0, _, _, value => pure value
  | turns + 1, i, mask, value =>
    if first &&& mask = 0 then
      pure (value + ((first &&& (mask - 1)).toUInt64 <<< UInt64.ofNat (8 * i)))
    else do
      let next ← leU8
      varuintTurns first turns (i + 1) (mask >>> 1) (value ||| (next.toUInt64 <<< UInt64.ofNat (8 * i)))

def sevenzipVaruint64Decode : NomParser UInt64 := do
  let first ← leU8
  varuintTurns first 8 0 0x80 0

def varuintBytes : Nat → UInt64 → UInt8 → UInt8 → List UInt8 → List UInt8
  | 0, _, _, first, rest => first :: rest
  | turns + 1, value, mask, first, rest =>
    if value < mask.toUInt64 then (first ||| value.toUInt8) :: rest
    else varuintBytes turns (value >>> 8) (mask >>> 1) (first ||| mask) (rest ++ [(value &&& 0xFF).toUInt8])

def sevenzipVaruint64Encode (value : UInt64) : List UInt8 := varuintBytes 8 value 0x80 0 []

example : sevenzipVaruint64Encode 0x3FFF = [0xBF, 0xFF] := by decide

namespace Varuint

def mask (k : Nat) : UInt8 := UInt8.ofNat (2 ^ k)
def lead (k : Nat) : UInt8 := UInt8.ofNat (256 - 2 ^ k)

theorem stop_byte : ∀ k < 8, ∀ v : Fin 256, v.val < 2 ^ k →
    (lead (k + 1) ||| UInt8.ofNat v.val) &&& mask k = 0 ∧
    (lead (k + 1) ||| UInt8.ofNat v.val) &&& (mask k - 1) = UInt8.ofNat v.val ∧
    256 - 2 ^ (k + 1) ≤ (lead (k + 1) ||| UInt8.ofNat v.val).toNat := by
  decide +kernel

theorem length_bit : ∀ k < 8, ∀ b : Fin 256, 256 - 2 ^ k ≤ b.val →
    UInt8.ofNat b.val &&& mask k ≠ 0 := by
  decide +kernel

theorem mask_succ : ∀ k < 7, mask (k + 1) >>> 1 = mask k := by decide

theorem lead_or_mask : ∀ k < 8, lead (k + 1) ||| mask k = lead k := by decide

theorem mask_toNat : ∀ k < 8, (mask k).toUInt64.toNat = 2 ^ k := by decide

theorem shift_toNat {b : UInt8} {i : ℕ} (hi : i < 8) :
    (b.toUInt64 <<< UInt64.ofNat (8 * i)).toNat = b.toNat * 2 ^ (8 * i) := by
  have hs : (UInt64.ofNat (8 * i)).toNat % 64 = 8 * i := by
    rw [UInt64.toNat_ofNat']
    omega
  have hb : b.toNat * 2 ^ (8 * i) < 2 ^ 64 := by
    calc b.toNat * 2 ^ (8 * i) < 2 ^ 8 * 2 ^ (8 * i) :=
          Nat.mul_lt_mul_of_pos_right b.toNat_lt (Nat.two_pow_pos _)
      _ = 2 ^ (8 + 8 * i) := (Nat.pow_add ..).symm
      _ ≤ 2 ^ 64 := Nat.pow_le_pow_right (by decide) (by omega)
  rw [UInt64.toNat_shiftLeft, hs, UInt8.toNat_toUInt64, Nat.shiftLeft_eq, Nat.mod_eq_of_lt hb]

theorem add_byte_lt {acc b i : ℕ} (hacc : acc < 2 ^ (8 * i)) (hb : b < 256) :
    acc + b * 2 ^ (8 * i) < 2 ^ (8 * (i + 1)) := by
  have h : 2 ^ (8 * (i + 1)) = 256 * 2 ^ (8 * i) := by rw [Nat.mul_add, Nat.pow_add]; ring
  nlinarith [Nat.mul_le_mul_right (2 ^ (8 * i)) (show b + 1 ≤ 256 from hb)]

theorem or_byte_toNat {acc : UInt64} {b : UInt8} {i : ℕ} (hi : i < 8)
    (hacc : acc.toNat < 2 ^ (8 * i)) :
    (acc ||| (b.toUInt64 <<< UInt64.ofNat (8 * i))).toNat = acc.toNat + b.toNat * 2 ^ (8 * i) := by
  rw [UInt64.toNat_or, shift_toNat hi, Nat.or_comm, ← Nat.shiftLeft_eq,
    ← Nat.shiftLeft_add_eq_or_of_lt hacc, Nat.add_comm]

theorem add_byte_toNat {acc : UInt64} {b : UInt8} {i : ℕ} (hi : i < 8)
    (hacc : acc.toNat < 2 ^ (8 * i)) :
    (acc + (b.toUInt64 <<< UInt64.ofNat (8 * i))).toNat = acc.toNat + b.toNat * 2 ^ (8 * i) := by
  rw [UInt64.toNat_add, shift_toNat hi, Nat.mod_eq_of_lt]
  refine (add_byte_lt hacc b.toNat_lt).trans_le ?_
  exact Nat.pow_le_pow_right (by decide) (by omega)

/-- With `k` length bits left, the bytes the encoder still writes are decoded to the value that is
left, placed above what was decoded before. -/
theorem turns_reads {W : Window} : ∀ k ≤ 8, ∀ (value acc : UInt64) (m : UInt8) (rest : List UInt8),
    (0 < k → m = mask (k - 1)) → value.toNat < 2 ^ (8 * k) → acc.toNat < 2 ^ (8 * (8 - k)) →
    ∃ first tail, varuintBytes k value m (lead k) rest = first :: (rest ++ tail) ∧
      256 - 2 ^ k ≤ first.toNat ∧ tail.length ≤ k ∧
      Reads W (varuintTurns first k (8 - k) m acc) tail
        (UInt64.ofNat (acc.toNat + value.toNat * 2 ^ (8 * (8 - k)))) := by
  intro k
  induction k with
  | zero =>
    intro _ value acc m rest _ hv _
    have hv : value.toNat = 0 := by simpa using hv
    refine ⟨lead 0, [], by simp [varuintBytes], by decide, le_rfl, ?_⟩
    rw [hv, Nat.zero_mul, Nat.add_zero, UInt64.ofNat_toNat]
    exact .pure acc
  | succ k ih =>
    intro hk value acc m rest hm hv hacc
    obtain rfl : m = mask k := hm (Nat.succ_pos k)
    have hk : k < 8 := hk
    have hi : 8 - (k + 1) < 8 := by omega
    by_cases hlt : value < (mask k).toUInt64
    · -- what is left fits behind the length bits of the first byte
      have hvk : value.toNat < 2 ^ k := mask_toNat k hk ▸ UInt64.lt_iff_toNat_lt.mp hlt
      have hv8 : value.toNat < 256 := hvk.trans_le (Nat.pow_le_pow_right (by decide) hk.le)
      have hu : value.toUInt8 = UInt8.ofNat value.toNat := by
        apply UInt8.toNat_inj.mp
        rw [UInt64.toNat_toUInt8, UInt8.toNat_ofNat']
      obtain ⟨h0, h1, h2⟩ := stop_byte k hk ⟨value.toNat, hv8⟩ hvk
      rw [← hu] at h0 h1 h2
      refine ⟨lead (k + 1) ||| value.toUInt8, [], ?_, h2, Nat.zero_le _, ?_⟩
      · rw [varuintBytes, if_pos hlt, List.append_nil]
      · rw [varuintTurns, if_pos h0, h1]
        have hw : UInt64.ofNat (acc.toNat + value.toNat * 2 ^ (8 * (8 - (k + 1)))) =
            acc + (value.toUInt8.toUInt64 <<< UInt64.ofNat (8 * (8 - (k + 1)))) := by
          rw [← UInt64.toNat_inj, add_byte_toNat hi hacc, UInt64.toNat_toUInt8,
            Nat.mod_eq_of_lt hv8, UInt64.toNat_ofNat', Nat.mod_eq_of_lt]
          refine (add_byte_lt hacc hv8).trans_le ?_
          exact Nat.pow_le_pow_right (by decide) (by omega)
        rw [hw]
        exact .pure _
    · -- its low byte is the next of the tail, and the rest is shorter by a byte
      set b : UInt8 := (value &&& 0xFF).toUInt8 with hb
      have hbn : b.toNat = value.toNat % 256 := by
        rw [hb, UInt64.toNat_toUInt8, UInt64.toNat_and]
        have : value.toNat &&& (0xFF : UInt64).toNat = value.toNat % 2 ^ 8 :=
          Nat.and_two_pow_sub_one_eq_mod value.toNat 8
        rw [this]
        omega
      have hsh : (value >>> 8).toNat = value.toNat / 256 := by
        rw [UInt64.toNat_shiftRight]
        exact Nat.shiftRight_eq_div_pow value.toNat 8
      have hv' : (value >>> 8).toNat < 2 ^ (8 * k) := by
        rw [hsh, Nat.div_lt_iff_lt_mul (by decide)]
        rwa [Nat.mul_succ, Nat.pow_add] at hv
      have hacc' := or_byte_toNat (b := b) hi hacc
      have h8 : 8 - (k + 1) + 1 = 8 - k := by omega
      have haccb : (acc ||| (b.toUInt64 <<< UInt64.ofNat (8 * (8 - (k + 1))))).toNat
          < 2 ^ (8 * (8 - k)) := by
        rw [hacc', ← h8]
        exact add_byte_lt hacc b.toNat_lt
      have hm' : 0 < k → mask k >>> 1 = mask (k - 1) := by
        intro hpos
        obtain ⟨j, rfl⟩ : ∃ j, k = j + 1 := ⟨k - 1, by omega⟩
        exact mask_succ j (by omega)
      obtain ⟨first, tail, h1, h2, h3, h4⟩ := ih hk.le (value >>> 8)
        (acc ||| (b.toUInt64 <<< UInt64.ofNat (8 * (8 - (k + 1))))) (mask k >>> 1) (rest ++ [b])
        hm' hv' haccb
      have hbit : first &&& mask k ≠ 0 := by
        have := length_bit k hk ⟨first.toNat, first.toNat_lt⟩ h2
        rwa [UInt8.ofNat_toNat] at this
      refine ⟨first, b :: tail, ?_, ?_, by simpa using h3, ?_⟩
      · rw [varuintBytes, if_neg hlt, lead_or_mask k hk, h1]
        simp
      · have : 2 ^ k ≤ 2 ^ (k + 1) := Nat.pow_le_pow_right (by decide) (Nat.le_succ k)
        omega
      · rw [varuintTurns, if_neg hbit, h8]
        refine (leU8_reads b).bind ?_
        convert h4 using 2
        rw [hacc', hsh, hbn, ← h8, Nat.mul_succ, Nat.pow_add]
        nth_rewrite 1 [← Nat.div_add_mod value.toNat 256]
        ring

end Varuint

open Varuint in
theorem sevenzipVaruint64Decode_reads {W : Window} (value : UInt64) :
    Reads W sevenzipVaruint64Decode (sevenzipVaruint64Encode value) value := by
  obtain ⟨first, tail, h1, _, _, h4⟩ := turns_reads (W := W) 8 le_rfl value 0 0x80 []
    (fun _ => by decide) value.toNat_lt (by decide)
  have h : sevenzipVaruint64Encode value = [first] ++ tail := h1
  rw [h]
  refine (leU8_reads first).bind ?_
  simpa using h4

open Varuint in
theorem sevenzipVaruint64Encode_length (value : UInt64) :
    0 < (sevenzipVaruint64Encode value).length ∧ (sevenzipVaruint64Encode value).length ≤ 9 := by
  obtain ⟨first, tail, h1, _, h3, _⟩ := turns_reads (W := Window.all) 8 le_rfl value 0 0x80 []
    (fun _ => by decide) value.toNat_lt (by decide)
  have h : sevenzipVaruint64Encode value = first :: tail := h1
  rw [h, List.length_cons]
  omega

section
variable {W : Window}

theorem varuintTurns_scans (first : UInt8) :
    ∀ turns i mask value, Scans W (varuintTurns first turns i mask value)
  | 0, _, _, value => .pure value
  | turns + 1, _, _, _ =>
    .ite (fun _ => .pure _) fun _ => leU8_scans.bind fun _ => varuintTurns_scans first turns _ _ _

theorem sevenzipVaruint64Decode_scans : Scans W sevenzipVaruint64Decode :=
  leU8_scans.bind fun first => varuintTurns_scans first 8 0 0x80 0

end

/-! Bitmaps and digests -/

def bitmapIsSet (bitmap : List UInt8) (index : Nat) : Bool := bitAt bitmap index

def checkedUsize (n : Nat) : NomParser Nat :=
  if n < usizeLimit then pure n else fail (.error .tooLarge)

def scanDigests (num : Nat) : NomParser Unit := do
  let allDefined ← leU8
  if allDefined ≠ 0 then
    let crcBytes ← checkedUsize (num * 4)
    let _ ← takeBytes crcBytes
  else
    let bitmap ← takeBytes ((num + 7) / 8)
    let numDefined := (List.range num).countP (bitmapIsSet bitmap.bytes)
    let crcBytes ← checkedUsize (numDefined * 4)
    let _ ← takeBytes crcBytes

/-- A view of `slice` in `backing`, found by the distance of the two addresses. An end past the
address space is past the end of `backing` too, so the checked addition needs no case of its own. -/
def bytesSubslice (backing slice : Slice) : Except NomErr (List UInt8) :=
  if slice.bytes.isEmpty then .ok []
  else if slice.addr < backing.addr then .error (.failure .verify)
  else
    let offset := slice.addr - backing.addr
    if offset + slice.bytes.length ≤ backing.bytes.length then
      .ok ((backing.bytes.drop offset).take slice.bytes.length)
    else .error (.failure .verify)

theorem bytesSubslice_within {backing slice : Slice} (h : (Window.within backing).mem slice) :
    bytesSubslice backing slice = .ok slice.bytes := by
  obtain ⟨pre, post, hb, ha⟩ := h
  unfold bytesSubslice
  by_cases he : slice.bytes.isEmpty
  · rw [if_pos he, List.isEmpty_iff.mp he]
  · have hoff : slice.addr - backing.addr = pre.length := by omega
    have hlen : pre.length + slice.bytes.length ≤ backing.bytes.length := by
      rw [hb]
      simp
    rw [if_neg he, if_neg (by omega), hoff, if_pos hlen, hb]
    simp

/-! Property tags -/

inductive Property where
  | END | Header | ArchiveProperties | AdditionalStreamsInfo | MainStreamsInfo | FilesInfo
  | PackInfo | UnPackInfo | SubStreamsInfo | Size | CRC | Folder | CodersUnPackSize
  | NumUnPackStream | EmptyStream | EmptyFile | Anti | Name | CTime | ATime | MTime
  | Attributes | Comment | EncodedHeader | StartPos | Dummy
deriving DecidableEq, Repr

def Property.toU8 : Property → UInt8
  | END => 0x00 | Header => 0x01 | ArchiveProperties => 0x02 | AdditionalStreamsInfo => 0x03
  | MainStreamsInfo => 0x04 | FilesInfo => 0x05 | PackInfo => 0x06 | UnPackInfo => 0x07
  | SubStreamsInfo => 0x08 | Size => 0x09 | CRC => 0x0A | Folder => 0x0B
  | CodersUnPackSize => 0x0C | NumUnPackStream => 0x0D | EmptyStream => 0x0E
  | EmptyFile => 0x0F | Anti => 0x10 | Name => 0x11 | CTime => 0x12 | ATime => 0x13
  | MTime => 0x14 | Attributes => 0x15 | Comment => 0x16 | EncodedHeader => 0x17
  | StartPos => 0x18 | Dummy => 0x19

def Property.all : List Property :=
  [END, Header, ArchiveProperties, AdditionalStreamsInfo, MainStreamsInfo, FilesInfo, PackInfo,
    UnPackInfo, SubStreamsInfo, Size, CRC, Folder, CodersUnPackSize, NumUnPackStream, EmptyStream,
    EmptyFile, Anti, Name, CTime, ATime, MTime, Attributes, Comment, EncodedHeader, StartPos, Dummy]

def Property.fromU8 (value : UInt8) : Option Property := all.find? (·.toU8 == value)

@[simp] theorem Property.fromU8_toU8 (p : Property) : fromU8 p.toU8 = some p := by
  cases p <;> decide

def Property.parse : NomParser Property := do
  let b ← leU8
  match fromU8 b with
  | some p => pure p
  | none => fail (.error .satisfy)

def expectProperty (p : Property) : NomParser Unit := do
  let tag ← Property.parse
  if tag ≠ p then fail (.failure .satisfy)
  else pure ()

def skipSection : NomParser Unit := do
  let size ← sevenzipVaruint64Decode
  let _ ← takeBytes size.toNat

section
variable {W : Window}

theorem Property.parse_reads (p : Property) : Reads W Property.parse [p.toU8] p := by
  refine (leU8_reads p.toU8).bind_nil ?_
  rw [fromU8_toU8]
  exact .pure p

theorem expectProperty_reads (p : Property) : Reads W (expectProperty p) [p.toU8] () := by
  refine (Property.parse_reads p).bind_nil ?_
  rw [if_neg (fun h => h rfl)]
  exact .pure ()

theorem Property.parse_scans : Scans W Property.parse := by
  refine leU8_scans.bind fun b => ?_
  cases fromU8 b with
  | none => exact .fail _
  | some p => exact .pure p

theorem expectProperty_scans (p : Property) : Scans W (expectProperty p) :=
  Property.parse_scans.bind fun _ => .ite (fun _ => .fail _) fun _ => .pure ()

theorem takeBytes_scans {α : Type} (n : Nat) {f : Slice → NomParser α}
    (hf : ∀ a b, b.length = n → Scans W (f ⟨a, b⟩)) : Scans W (takeBytes n >>= f) := .take_bind hf

theorem skipSection_scans : Scans W skipSection :=
  sevenzipVaruint64Decode_scans.bind fun _ => takeBytes_scans _ fun _ _ _ => .pure ()

theorem checkedUsize_scans (n : Nat) : Scans W (checkedUsize n) :=
  .ite (fun _ => .pure n) fun _ => .fail _

theorem scanDigests_scans (num : Nat) : Scans W (scanDigests num) :=
  leU8_scans.bind fun _ => .ite
    (fun _ => (checkedUsize_scans _).bind fun _ => takeBytes_scans _ fun _ _ _ => .pure ())
    fun _ => takeBytes_scans _ fun _ _ _ =>
      (checkedUsize_scans _).bind fun _ => takeBytes_scans _ fun _ _ _ => .pure ()

theorem Property.parse_progresses : Progresses Property.parse :=
  (Progresses.byte _).bind fun b s w r h => by
    cases hb : fromU8 b with
    | none => rw [hb] at h; cases h
    | some p => rw [hb] at h; cases h; exact le_rfl

theorem leU32_width : FixedWidth leU32 4 :=
  (show FixedWidth (leBytes 4) 4 from
    (FixedWidth.byte _).bind fun _ => ((FixedWidth.byte _).bind fun _ => ((FixedWidth.byte _).bind
      fun _ => ((FixedWidth.byte _).bind fun _ => (FixedWidth.pure 0).bind fun _ => .pure _).bind
      fun _ => .pure _).bind fun _ => .pure _).bind fun _ => .pure _).bind fun _ => .pure _

end

end R7z
