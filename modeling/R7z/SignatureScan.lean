import R7z.Open

/-! Where an archive begins: the search for its signature, in chunks of a source and in a slice. -/

namespace R7z

def SEVEN_Z_MAGIC : List UInt8 := [0x37, 0x7A, 0xBC, 0xAF, 0x27, 0x1C]

def SIGNATURE_SCAN_CHUNK : ℕ := 64 * 1024

def checkedAddNat (a b : ℕ) : Except R7zError ℕ := if a + b < 2 ^ 64 then .ok (a + b) else .error .parse

theorem checkedAddNat_ok {a b : ℕ} (h : a + b < 2 ^ 64) : checkedAddNat a b = .ok (a + b) := if_pos h

theorem checkedAddNat_error {a b : ℕ} (h : ¬a + b < 2 ^ 64) : checkedAddNat a b = .error .parse := if_neg h

/-! The signature -/

structure StoredSignature extends SignatureHeader where
  signature : List UInt8
  majorVersion : UInt8
  minorVersion : UInt8
  startHeaderCrc : UInt32
deriving DecidableEq, Repr

def ofLeBytes (bytes : List UInt8) : ℕ := bytes.foldr (fun b acc => b.toNat + 256 * acc) 0

def StoredSignature.ofBytes (input : List UInt8) : StoredSignature where
  signature := input.take 6
  majorVersion := input.getD 6 0
  minorVersion := input.getD 7 0
  startHeaderCrc := UInt32.ofNat (ofLeBytes ((input.drop 8).take 4))
  nextHeaderOffset := UInt64.ofNat (ofLeBytes ((input.drop 12).take 8))
  nextHeaderSize := UInt64.ofNat (ofLeBytes ((input.drop 20).take 8))
  nextHeaderCrc := UInt32.ofNat (ofLeBytes ((input.drop 28).take 4))

def StoredSignature.parse (input : List UInt8) : Except R7zError StoredSignature :=
  if input.length < 32 then .error .parse else .ok (.ofBytes input)

variable (crc32 : List UInt8 → UInt32)

def StoredSignature.validateStartHeaderCrc (signature : StoredSignature) : Except R7zError Unit :=
  let buf := toLeBytes 8 signature.nextHeaderOffset.toNat ++ toLeBytes 8 signature.nextHeaderSize.toNat ++
    toLeBytes 4 signature.nextHeaderCrc.toNat
  if crc32 buf = signature.startHeaderCrc then .ok () else .error .crc

theorem StoredSignature.validate_cases (signature : StoredSignature) :
    signature.validateStartHeaderCrc crc32 = .ok () ∨ signature.validateStartHeaderCrc crc32 = .error .crc := by
  unfold validateStartHeaderCrc
  dsimp only
  split
  · exact .inl rfl
  · exact .inr rfl

def findMagicOffsets (haystack : List UInt8) : List ℕ :=
  (List.range (haystack.length + 1 - SEVEN_Z_MAGIC.length)).filter fun idx =>
    (haystack.drop idx).take SEVEN_Z_MAGIC.length = SEVEN_Z_MAGIC

/-! In a source -/

/-- What can be read from a source; its length is a 64-bit number. -/
structure ByteSource where
  content : List UInt8
  len_lt : content.length < 2 ^ 64

namespace ByteSource

variable (source : ByteSource)

def len : ℕ := source.content.length

def readExactAt (offset n : ℕ) : Except R7zError (List UInt8) :=
  if n = 0 then .ok []
  else do
    let stop ← checkedAddNat offset n
    if source.len < stop then .error .parse else .ok ((source.content.drop offset).take n)

inductive Candidate where
  | Valid (signature : StoredSignature)
  | BadCrc
  | Incomplete

def signatureAt (offset : ℕ) : Except R7zError Candidate := do
  let stop ← checkedAddNat offset 32
  if source.len < stop then .ok .Incomplete
  else do
    let signatureBytes ← source.readExactAt offset 32
    let signature ← StoredSignature.parse signatureBytes
    if signature.signature ≠ SEVEN_Z_MAGIC then .ok .Incomplete
    else
      match signature.validateStartHeaderCrc crc32 with
      | .ok () => .ok (.Valid signature)
      | .error .crc => .ok .BadCrc
      | .error e => .error e

/-- How far a scan has come: to a signature, or to the end with or without one that is broken. -/
inductive Scan where
  | found (offset : ℕ) (signature : StoredSignature)
  | none (sawBadSignature : Bool)

def tryCandidates (base : ℕ) : (positions : List ℕ) → (sawBadSignature : Bool) → Except R7zError Scan
  | [], saw => .ok (.none saw)
  | pos :: rest, saw => do
    let candidate ← checkedAddNat base pos
    match ← source.signatureAt crc32 candidate with
    | .Valid signature => .ok (.found candidate signature)
    | .BadCrc => tryCandidates base rest true
    | .Incomplete => tryCandidates base rest saw

/-- The chunks from `offset` on, one each turn; `carry` is the end of what was read before. -/
def scanChunks (scanLen : ℕ) : (turns offset : ℕ) → (carry : List UInt8) → (sawBadSignature : Bool) →
    Except R7zError Scan
  | 0, _, _, saw => .ok (.none saw)
  | turns + 1, offset, carry, saw =>
    if offset < scanLen then do
      let chunkLen := min (scanLen - offset) SIGNATURE_SCAN_CHUNK
      let chunk ← source.readExactAt offset chunkLen
      let searchStart := carry.length - (SEVEN_Z_MAGIC.length - 1)
      let base := offset - carry.length
      let carried := carry ++ chunk
      let positions := (findMagicOffsets (carried.drop searchStart)).map fun pos => searchStart + pos
      match ← tryCandidates crc32 source base positions saw with
      | .found offset signature => .ok (.found offset signature)
      | .none saw => do
        -- the next chunk is searched with the end of this one in front, where a magic may begin
        let next ← checkedAddNat offset chunkLen
        scanChunks scanLen turns next
          (if SEVEN_Z_MAGIC.length - 1 ≤ carried.length then
            carried.drop (carried.length - (SEVEN_Z_MAGIC.length - 1)) else carried) saw
    else .ok (.none saw)

def findSignature (limit : UInt64) : Except R7zError (ℕ × StoredSignature) := do
  let scanLen := min source.len limit.toNat
  match ← source.scanChunks crc32 scanLen (scanLen / SIGNATURE_SCAN_CHUNK + 1) 0 [] false with
  | .found offset signature => .ok (offset, signature)
  | .none saw =>
    if saw then .error .crc
    else if limit.toNat < source.len then .error (.resourceLimitExceeded "signature scan" limit)
    else .error .parse

end ByteSource

/-! In a slice -/

def tryInSlice (data : List UInt8) : (offsets : List ℕ) → (sawBadSignature : Bool) → Except R7zError ℕ
  | [], saw => if saw then .error .crc else .error .parse
  | offset :: rest, saw =>
    if data.length < offset + 32 then tryInSlice data rest saw
    else do
      let signature ← StoredSignature.parse ((data.drop offset).take 32)
      match signature.validateStartHeaderCrc crc32 with
      | .ok () => .ok offset
      | .error .crc => tryInSlice data rest true
      | .error e => .error e

def findSignatureInSlice (data : List UInt8) : Except R7zError ℕ :=
  tryInSlice crc32 data (findMagicOffsets data) false

/-! What the search comes to -/

def MagicAt (content : List UInt8) (i : ℕ) : Prop :=
  (content.drop i).take SEVEN_Z_MAGIC.length = SEVEN_Z_MAGIC

instance (content : List UInt8) (i : ℕ) : Decidable (MagicAt content i) := inferInstanceAs (Decidable (_ = _))

def storedAt (content : List UInt8) (i : ℕ) : StoredSignature := .ofBytes ((content.drop i).take 32)

def ValidAt (content : List UInt8) (i : ℕ) : Prop :=
  i + 32 ≤ content.length ∧ (storedAt content i).validateStartHeaderCrc crc32 = .ok ()

def offsetsBetween (content : List UInt8) (a b : ℕ) : List ℕ :=
  (List.range' a (b - a)).filter fun i => MagicAt content i

theorem mem_offsetsBetween {content : List UInt8} {a b i : ℕ} :
    i ∈ offsetsBetween content a b ↔ (a ≤ i ∧ i < b) ∧ MagicAt content i := by
  rw [offsetsBetween, List.mem_filter, List.mem_range'_1, decide_eq_true_iff]
  refine and_congr_left fun _ => ?_
  omega

theorem offsetsBetween_append {content : List UInt8} {a b c : ℕ} (hab : a ≤ b) (hbc : b ≤ c) :
    offsetsBetween content a c = offsetsBetween content a b ++ offsetsBetween content b c := by
  have hsplit : List.range' a (c - a) = List.range' a (b - a) ++ List.range' b (c - b) := by
    have happend := List.range'_append_1 (s := a) (m := b - a) (n := c - b)
    rw [Nat.add_sub_cancel' hab] at happend
    rw [happend]
    congr 1
    omega
  rw [offsetsBetween, hsplit, List.filter_append]
  rfl

theorem offsetsBetween_self (content : List UInt8) (a : ℕ) : offsetsBetween content a a = [] := by
  rw [offsetsBetween, Nat.sub_self]
  rfl

theorem offsetsBetween_sorted (content : List UInt8) (a b : ℕ) :
    (offsetsBetween content a b).Pairwise (· < ·) := by
  apply List.Pairwise.filter
  exact List.pairwise_lt_range'

theorem findMagicOffsets_part {content : List UInt8} {a n : ℕ} (h : a + n ≤ content.length) :
    (findMagicOffsets ((content.drop a).take n)).map (a + ·) = offsetsBetween content a (a + n - 5) := by
  have hlength : ((content.drop a).take n).length = n :=
    List.length_take_of_le (by rw [List.length_drop]; omega)
  have hcount : a + n - 5 - a = n + 1 - 6 := by omega
  rw [findMagicOffsets, offsetsBetween, hlength, hcount, List.range'_eq_map_range, List.filter_map]
  congr 1
  apply List.filter_congr
  intro idx hidx
  have hlt : idx < n + 1 - 6 := List.mem_range.mp hidx
  have hwindow : (((content.drop a).take n).drop idx).take 6 = (content.drop (a + idx)).take 6 := by
    rw [List.drop_take, List.take_take, List.drop_drop, min_eq_left (by omega)]
  exact decide_eq_decide.mpr (iff_of_eq (congrArg (· = SEVEN_Z_MAGIC) hwindow))

namespace ByteSource

theorem signatureAt_cases {source : ByteSource} {i : ℕ} (hmagic : MagicAt source.content i) :
    (2 ^ 64 ≤ i + 32 ∧ source.signatureAt crc32 i = .error .parse) ∨
    (i + 32 < 2 ^ 64 ∧ source.len < i + 32 ∧ source.signatureAt crc32 i = .ok .Incomplete) ∨
    (ValidAt crc32 source.content i ∧
      source.signatureAt crc32 i = .ok (.Valid (storedAt source.content i))) ∨
    (i + 32 ≤ source.len ∧ ¬ValidAt crc32 source.content i ∧
      source.signatureAt crc32 i = .ok .BadCrc) := by
  by_cases hover : i + 32 < 2 ^ 64
  · by_cases hshort : source.len < i + 32
    · exact .inr (.inl ⟨hover, hshort, by simp [signatureAt, checkedAddNat_ok hover, hshort, bind, Except.bind]⟩)
    · right
      right
      have hlength : ((source.content.drop i).take 32).length = 32 :=
        List.length_take_of_le (by rw [List.length_drop]; unfold len at hshort; omega)
      have hread : source.readExactAt i 32 = .ok ((source.content.drop i).take 32) := by
        rw [readExactAt, if_neg (by decide), checkedAddNat_ok hover]
        exact if_neg hshort
      have hparse : StoredSignature.parse ((source.content.drop i).take 32) =
          .ok (storedAt source.content i) := if_neg (by rw [hlength]; decide)
      have hstored : (storedAt source.content i).signature = SEVEN_Z_MAGIC := by
        change ((source.content.drop i).take 32).take 6 = _
        rw [List.take_take]
        exact hmagic
      unfold ValidAt
      rcases (storedAt source.content i).validate_cases crc32 with hcrc | hbad
      · exact .inl ⟨⟨not_lt.mp hshort, hcrc⟩, by
          simp [signatureAt, checkedAddNat_ok hover, hshort, hread, hparse, hstored, hcrc, bind, Except.bind]⟩
      · refine .inr ⟨not_lt.mp hshort, fun h => ?_, by
          simp [signatureAt, checkedAddNat_ok hover, hshort, hread, hparse, hstored, hbad, bind, Except.bind]⟩
        cases h.2.symm.trans hbad
  · exact .inl ⟨not_lt.mp hover, by simp [signatureAt, checkedAddNat_error hover, bind, Except.bind]⟩

variable {source : ByteSource}

theorem tryCandidates_shift (base : ℕ) : ∀ (positions : List ℕ) (saw : Bool),
    (∀ pos ∈ positions, base + pos < 2 ^ 64) →
    tryCandidates crc32 source base positions saw =
      tryCandidates crc32 source 0 (positions.map (base + ·)) saw
  | [], _, _ => rfl
  | pos :: rest, saw, h => by
    obtain ⟨hpos, hrest⟩ := List.forall_mem_cons.mp h
    have ih := fun saw => tryCandidates_shift base rest saw hrest
    have hzero : 0 + (base + pos) < 2 ^ 64 := by omega
    rw [List.map_cons, tryCandidates, tryCandidates, checkedAddNat_ok hpos, checkedAddNat_ok hzero,
      Nat.zero_add]
    simp only [ih]

def Scan.next (more : Bool → Except R7zError Scan) : Scan → Except R7zError Scan
  | .found offset signature => .ok (.found offset signature)
  | .none saw => more saw

theorem tryCandidates_append : ∀ (l m : List ℕ) (saw : Bool),
    tryCandidates crc32 source 0 (l ++ m) saw =
      tryCandidates crc32 source 0 l saw >>= Scan.next (tryCandidates crc32 source 0 m)
  | [], _, _ => rfl
  | pos :: rest, m, saw => by
    have ih := tryCandidates_append rest m
    rw [List.cons_append, tryCandidates, tryCandidates]
    rcases checkedAddNat 0 pos with e | candidate
    · rfl
    · show (source.signatureAt crc32 candidate >>= _) = (source.signatureAt crc32 candidate >>= _) >>= _
      rcases source.signatureAt crc32 candidate with e | signature | _ | _
      · rfl
      · rfl
      · exact ih true
      · exact ih saw

theorem tryCandidates_none {l : List ℕ} {saw : Bool} (hmagic : ∀ i ∈ l, MagicAt source.content i)
    (hvalid : ∀ i ∈ l, ¬ValidAt crc32 source.content i) (hover : ∀ i ∈ l, i + 32 < 2 ^ 64) :
    tryCandidates crc32 source 0 l saw = .ok (.none (saw || l.any fun i => i + 32 ≤ source.len)) := by
  induction l generalizing saw with
  | nil => rw [List.any_nil, Bool.or_false, tryCandidates]
  | cons i l ih =>
    obtain ⟨hmagic', hmagic⟩ := List.forall_mem_cons.mp hmagic
    obtain ⟨hvalid', hvalid⟩ := List.forall_mem_cons.mp hvalid
    obtain ⟨hover', hover⟩ := List.forall_mem_cons.mp hover
    have hzero : 0 + i < 2 ^ 64 := by omega
    rw [tryCandidates, checkedAddNat_ok hzero, Nat.zero_add]
    show (source.signatureAt crc32 i >>= _) = _
    rcases signatureAt_cases crc32 hmagic' with ⟨h, -⟩ | ⟨-, hshort, h⟩ | ⟨h, -⟩ | ⟨hlong, -, h⟩
    · omega
    · rw [h, List.any_cons, decide_eq_false (not_le.mpr hshort), Bool.false_or]
      exact ih hmagic hvalid hover
    · exact absurd h hvalid'
    · rw [h, List.any_cons, decide_eq_true hlong, Bool.true_or, Bool.or_true]
      refine (ih hmagic hvalid hover).trans ?_
      rw [Bool.true_or]

theorem tryCandidates_found {pre post : List ℕ} {i : ℕ} {saw : Bool}
    (hmagic : ∀ j ∈ pre ++ i :: post, MagicAt source.content j)
    (hvalid : ∀ j ∈ pre, ¬ValidAt crc32 source.content j) (hover : ∀ j ∈ pre, j + 32 < 2 ^ 64)
    (hi : ValidAt crc32 source.content i) :
    tryCandidates crc32 source 0 (pre ++ i :: post) saw = .ok (.found i (storedAt source.content i)) := by
  have hmagic' := List.forall_mem_append.mp hmagic
  have hroom : 0 + i < 2 ^ 64 := by
    have hlen := source.len_lt
    have hle := hi.1
    omega
  rw [tryCandidates_append, tryCandidates_none crc32 hmagic'.1 hvalid hover]
  show tryCandidates crc32 source 0 (i :: post) _ = _
  rw [tryCandidates, checkedAddNat_ok hroom, Nat.zero_add]
  show (source.signatureAt crc32 i >>= _) = _
  rcases signatureAt_cases crc32 (hmagic'.2 i List.mem_cons_self) with ⟨h, -⟩ | ⟨-, h, -⟩ | ⟨-, h⟩ | ⟨-, h, -⟩
  · have hlen := source.len_lt
    have hle := hi.1
    omega
  · exact absurd hi.1 (not_le.mpr h)
  · rw [h]
    rfl
  · exact absurd hi h

/-- A candidate whose 32 bytes would go beyond the 64-bit range ends the search. -/
theorem tryCandidates_over {pre post : List ℕ} {i : ℕ} {saw : Bool}
    (hmagic : ∀ j ∈ pre ++ i :: post, MagicAt source.content j)
    (hvalid : ∀ j ∈ pre, ¬ValidAt crc32 source.content j) (hover : ∀ j ∈ pre, j + 32 < 2 ^ 64)
    (hi : 2 ^ 64 ≤ i + 32) : tryCandidates crc32 source 0 (pre ++ i :: post) saw = .error .parse := by
  have hmagic' := List.forall_mem_append.mp hmagic
  rw [tryCandidates_append, tryCandidates_none crc32 hmagic'.1 hvalid hover]
  show tryCandidates crc32 source 0 (i :: post) _ = _
  rw [tryCandidates]
  by_cases hroom : 0 + i < 2 ^ 64
  · rw [checkedAddNat_ok hroom, Nat.zero_add]
    show (source.signatureAt crc32 i >>= _) = _
    rcases signatureAt_cases crc32 (hmagic'.2 i List.mem_cons_self) with ⟨-, h⟩ | ⟨h, -⟩ | ⟨h, -⟩ | ⟨h, -⟩
    · rw [h]
      rfl
    · omega
    · have hlen := source.len_lt
      have hle := h.1
      omega
    · have hlen := source.len_lt
      unfold len at h
      omega
  · rw [checkedAddNat_error hroom]
    rfl

/-! The chunks -/

theorem readExactAt_ok {offset n : ℕ} (h : offset + n ≤ source.len) :
    source.readExactAt offset n = .ok ((source.content.drop offset).take n) := by
  unfold readExactAt
  split
  · rename_i hn
    rw [hn, List.take_zero]
  · rw [checkedAddNat_ok (h.trans_lt source.len_lt)]
    exact if_neg (not_lt.mpr h)

def carryAt (content : List UInt8) (offset : ℕ) : List UInt8 :=
  (content.drop (offset - 5)).take (offset - (offset - 5))

theorem carryAt_append (content : List UInt8) (offset c : ℕ) :
    carryAt content offset ++ (content.drop offset).take c =
      (content.drop (offset - 5)).take (offset - (offset - 5) + c) := by
  have hdrop : content.drop offset = (content.drop (offset - 5)).drop (offset - (offset - 5)) := by
    rw [List.drop_drop]
    congr 1
    omega
  rw [carryAt, hdrop, List.take_add]

theorem carryAt_next {content : List UInt8} {offset c : ℕ} (h : offset + c ≤ content.length) :
    (if 5 ≤ (carryAt content offset ++ (content.drop offset).take c).length then
      (carryAt content offset ++ (content.drop offset).take c).drop
        ((carryAt content offset ++ (content.drop offset).take c).length - 5)
      else carryAt content offset ++ (content.drop offset).take c) = carryAt content (offset + c) := by
  have hlength : ((content.drop (offset - 5)).take (offset - (offset - 5) + c)).length =
      offset - (offset - 5) + c := List.length_take_of_le (by rw [List.length_drop]; omega)
  rw [carryAt_append, hlength]
  split
  · have hstart : offset - 5 + (offset - (offset - 5) + c - 5) = offset + c - 5 := by omega
    have hcount : offset - (offset - 5) + c - (offset - (offset - 5) + c - 5) =
        offset + c - (offset + c - 5) := by omega
    rw [List.drop_take, List.drop_drop, hstart, hcount, carryAt]
  · have hstart : offset - 5 = offset + c - 5 := by omega
    have hcount : offset - (offset - 5) + c = offset + c - (offset + c - 5) := by omega
    rw [hcount, hstart, carryAt]

/-- The chunks are searched as if they were one piece. -/
theorem scanChunks_eq {scanLen : ℕ} (hscan : scanLen ≤ source.len) : ∀ (turns offset : ℕ) (saw : Bool),
    offset ≤ scanLen → scanLen ≤ offset + turns * SIGNATURE_SCAN_CHUNK →
    scanChunks crc32 source scanLen turns offset (carryAt source.content offset) saw =
      tryCandidates crc32 source 0 (offsetsBetween source.content (offset - 5) (scanLen - 5)) saw
  | 0, offset, saw, hle, hturns => by
    have heq : offset = scanLen := by omega
    rw [heq, offsetsBetween_self]
    rfl
  | turns + 1, offset, saw, hle, hturns => by
    rw [scanChunks]
    split
    · rename_i hlt
      dsimp only
      obtain ⟨c, hc⟩ : ∃ c, c = min (scanLen - offset) SIGNATURE_SCAN_CHUNK := ⟨_, rfl⟩
      have hchunk : SIGNATURE_SCAN_CHUNK = 65536 := rfl
      have hpos : 0 < c := by omega
      have hnext : offset + c ≤ scanLen := by omega
      have hroom : offset + c ≤ source.len := hnext.trans hscan
      have hcarry : (carryAt source.content offset).length = offset - (offset - 5) :=
        List.length_take_of_le (by rw [List.length_drop]; unfold len at hroom; omega)
      have hstart : (carryAt source.content offset).length - (SEVEN_Z_MAGIC.length - 1) = 0 := by
        rw [hcarry]
        show _ - 5 = 0
        omega
      have hbase : offset - (carryAt source.content offset).length = offset - 5 := by
        rw [hcarry]
        omega
      -- what the carry and the chunk show are the candidates of this stretch
      have hpositions : ((findMagicOffsets (carryAt source.content offset ++
          (source.content.drop offset).take c)).map (offset - 5 + ·)) =
          offsetsBetween source.content (offset - 5) (offset + c - 5) := by
        have hend : offset - 5 + (offset - (offset - 5) + c) - 5 = offset + c - 5 := by omega
        rw [carryAt_append, findMagicOffsets_part (by unfold len at hroom; omega), hend]
      have hbound : ∀ pos ∈ findMagicOffsets (carryAt source.content offset ++
          (source.content.drop offset).take c), offset - 5 + pos < 2 ^ 64 := by
        intro pos hpos
        have hmem := List.mem_map_of_mem (f := (offset - 5 + ·)) hpos
        rw [hpositions] at hmem
        have hlt := (mem_offsetsBetween.mp hmem).1.2
        have hlen := source.len_lt
        unfold len at hroom
        omega
      have hsum : offset + c < 2 ^ 64 := hroom.trans_lt source.len_lt
      have hzero : (fun pos : ℕ => 0 + pos) = id := funext fun pos => Nat.zero_add pos
      -- the induction is on the chunks that are left
      have ih := fun saw => scanChunks_eq hscan turns (offset + c) saw hnext (by
        rw [hchunk] at hc hturns ⊢
        omega)
      rw [← hc, readExactAt_ok hroom]
      dsimp only [bind, Except.bind]
      have hcut : SEVEN_Z_MAGIC.length - 1 = 5 := rfl
      rw [hstart, hbase, hzero, hcut, List.map_id, List.drop_zero,
        tryCandidates_shift crc32 _ _ saw hbound, hpositions, carryAt_next hroom, checkedAddNat_ok hsum,
        offsetsBetween_append (show offset - 5 ≤ offset + c - 5 by omega)
          (show offset + c - 5 ≤ scanLen - 5 by omega), tryCandidates_append]
      rcases tryCandidates crc32 source 0 (offsetsBetween source.content (offset - 5) (offset + c - 5)) saw
        with e | found | saw
      · rfl
      · rfl
      · exact ih saw
    · have heq : offset = scanLen := by omega
      rw [heq, offsetsBetween_self]
      rfl

/-! What candidates come to -/

theorem validAt_before {i j : ℕ} (hi : ValidAt crc32 source.content i) (hj : j < i) : j + 32 < 2 ^ 64 := by
  have hlen := source.len_lt
  have hle := hi.1
  omega

theorem tryCandidates_first {l : List ℕ} {i : ℕ} {saw : Bool} (hsorted : l.Pairwise (· < ·))
    (hmagic : ∀ j ∈ l, MagicAt source.content j) (hmem : i ∈ l) (hi : ValidAt crc32 source.content i)
    (hfirst : ∀ j ∈ l, j < i → ¬ValidAt crc32 source.content j) :
    tryCandidates crc32 source 0 l saw = .ok (.found i (storedAt source.content i)) := by
  obtain ⟨pre, post, rfl⟩ := List.append_of_mem hmem
  have hbefore : ∀ j ∈ pre, j < i := fun j hj =>
    (List.pairwise_append.mp hsorted).2.2 j hj i List.mem_cons_self
  apply tryCandidates_found crc32 hmagic
  · exact fun j hj => hfirst j (List.mem_append_left _ hj) (hbefore j hj)
  · exact fun j hj => validAt_before crc32 hi (hbefore j hj)
  · exact hi

theorem tryCandidates_overrun {l : List ℕ} {saw : Bool} (hsorted : l.Pairwise (· < ·))
    (hmagic : ∀ j ∈ l, MagicAt source.content j) (hvalid : ∀ j ∈ l, ¬ValidAt crc32 source.content j)
    (hover : ∃ i ∈ l, 2 ^ 64 ≤ i + 32) : tryCandidates crc32 source 0 l saw = .error .parse := by
  -- the first of them: all before it can be tried
  obtain ⟨i, hfirst⟩ : ∃ i, l.find? (fun i => decide (2 ^ 64 ≤ i + 32)) = some i := by
    rw [← Option.isSome_iff_exists, List.find?_isSome]
    simpa only [decide_eq_true_iff] using hover
  obtain ⟨hi, pre, post, rfl, hpre⟩ := List.find?_eq_some_iff_append.mp hfirst
  have hbefore : ∀ j ∈ pre, j + 32 < 2 ^ 64 := by
    intro j hj
    have hnot := hpre j hj
    rw [Bool.not_eq_true', decide_eq_false_iff_not] at hnot
    exact not_le.mp hnot
  apply tryCandidates_over crc32 hmagic
  · exact fun j hj => hvalid j (List.mem_append_left _ hj)
  · exact hbefore
  · exact of_decide_eq_true hi

end ByteSource

/-- The offsets where the magic bytes lie within the first `window` bytes. -/
def CandidateAt (content : List UInt8) (window i : ℕ) : Prop := i + SEVEN_Z_MAGIC.length ≤ window ∧ MagicAt content i

theorem mem_candidates {content : List UInt8} {window i : ℕ} :
    i ∈ offsetsBetween content 0 (window - 5) ↔ CandidateAt content window i := by
  have hlength : SEVEN_Z_MAGIC.length = 6 := rfl
  rw [mem_offsetsBetween, CandidateAt, hlength]
  refine and_congr_left fun _ => ?_
  omega

namespace ByteSource

variable (source : ByteSource) (limit : UInt64)

def window : ℕ := min source.len limit.toNat

def Scan.answer : Scan → Except R7zError (ℕ × StoredSignature)
  | .found offset signature => .ok (offset, signature)
  | .none saw =>
    if saw then .error .crc
    else if limit.toNat < source.len then .error (.resourceLimitExceeded "signature scan" limit)
    else .error .parse

theorem findSignature_eq :
    source.findSignature crc32 limit =
      tryCandidates crc32 source 0 (offsetsBetween source.content 0 (source.window limit - 5)) false >>=
        Scan.answer source limit := by
  have hturns : source.window limit ≤
      0 + (source.window limit / SIGNATURE_SCAN_CHUNK + 1) * SIGNATURE_SCAN_CHUNK := by
    rw [SIGNATURE_SCAN_CHUNK]
    omega
  have hscan := scanChunks_eq crc32 (min_le_left source.len limit.toNat)
    (source.window limit / SIGNATURE_SCAN_CHUNK + 1) 0 false (Nat.zero_le _) hturns
  exact congrArg (· >>= Scan.answer source limit) hscan

variable {source limit}

theorem find_signature_first {i : ℕ} (hmem : CandidateAt source.content (source.window limit) i)
    (hi : ValidAt crc32 source.content i)
    (hfirst : ∀ j, CandidateAt source.content (source.window limit) j → j < i →
      ¬ValidAt crc32 source.content j) :
    source.findSignature crc32 limit = .ok (i, storedAt source.content i) := by
  rw [findSignature_eq, tryCandidates_first crc32 (offsetsBetween_sorted _ _ _)
    (fun j hj => (mem_candidates.mp hj).2) (mem_candidates.mpr hmem) hi
    fun j hj => hfirst j (mem_candidates.mp hj)]
  rfl

theorem find_signature_overrun
    (hvalid : ∀ j, CandidateAt source.content (source.window limit) j → ¬ValidAt crc32 source.content j)
    (hover : ∃ i, CandidateAt source.content (source.window limit) i ∧ 2 ^ 64 ≤ i + 32) :
    source.findSignature crc32 limit = .error .parse := by
  obtain ⟨i, hmem, hi⟩ := hover
  rw [findSignature_eq, tryCandidates_overrun crc32 (offsetsBetween_sorted _ _ _)
    (fun j hj => (mem_candidates.mp hj).2) (fun j hj => hvalid j (mem_candidates.mp hj))
    ⟨i, mem_candidates.mpr hmem, hi⟩]
  rfl

theorem find_signature_none
    (hvalid : ∀ j, CandidateAt source.content (source.window limit) j → ¬ValidAt crc32 source.content j)
    (hover : ∀ j, CandidateAt source.content (source.window limit) j → j + 32 < 2 ^ 64) :
    source.findSignature crc32 limit =
      Scan.answer source limit (.none ((offsetsBetween source.content 0 (source.window limit - 5)).any
        fun i => i + 32 ≤ source.len)) := by
  rw [findSignature_eq, tryCandidates_none crc32 (fun j hj => (mem_candidates.mp hj).2)
    (fun j hj => hvalid j (mem_candidates.mp hj)) (fun j hj => hover j (mem_candidates.mp hj)),
    Bool.false_or]
  rfl

theorem any_complete : ((offsetsBetween source.content 0 (source.window limit - 5)).any
      fun i => i + 32 ≤ source.len) = true ↔
    ∃ i, CandidateAt source.content (source.window limit) i ∧ i + 32 ≤ source.len := by
  rw [List.any_eq_true]
  refine exists_congr fun i => ?_
  rw [mem_candidates, decide_eq_true_iff]

/-! The slice -/

theorem parse_storedAt {data : List UInt8} {i : ℕ} (h : i + 32 ≤ data.length) :
    StoredSignature.parse ((data.drop i).take 32) = .ok (storedAt data i) := by
  have hlength : ((data.drop i).take 32).length = 32 :=
    List.length_take_of_le (by rw [List.length_drop]; omega)
  exact if_neg (by rw [hlength]; decide)

theorem tryInSlice_valid {data : List UInt8} {i : ℕ} {rest : List ℕ} {saw : Bool} (h : ValidAt crc32 data i) :
    tryInSlice crc32 data (i :: rest) saw = .ok i := by
  rw [tryInSlice, if_neg (not_lt.mpr h.1), parse_storedAt h.1]
  simp only [bind, Except.bind, h.2]

theorem tryInSlice_bad {data : List UInt8} {i : ℕ} {rest : List ℕ} {saw : Bool} (hlong : i + 32 ≤ data.length)
    (h : ¬ValidAt crc32 data i) :
    tryInSlice crc32 data (i :: rest) saw = tryInSlice crc32 data rest true := by
  have hbad : (storedAt data i).validateStartHeaderCrc crc32 = .error .crc :=
    ((storedAt data i).validate_cases crc32).resolve_left fun hcrc => h ⟨hlong, hcrc⟩
  rw [tryInSlice, if_neg (not_lt.mpr hlong), parse_storedAt hlong]
  simp only [bind, Except.bind, hbad]

theorem tryInSlice_eq : ∀ (l : List ℕ) (saw : Bool), (∀ i ∈ l, MagicAt source.content i) →
    (∀ i ∈ l, i + 32 < 2 ^ 64) → source.len ≤ limit.toNat →
    tryInSlice crc32 source.content l saw =
      (tryCandidates crc32 source 0 l saw >>= Scan.answer source limit).map Prod.fst
  | [], saw, _, _, hlimit => by
    rw [tryInSlice, tryCandidates]
    show _ = (Scan.answer source limit (.none saw)).map Prod.fst
    rw [Scan.answer, if_neg (not_lt.mpr hlimit)]
    cases saw
    · rfl
    · rfl
  | i :: rest, saw, hmagic, hover, hlimit => by
    obtain ⟨hmagic', hmagic⟩ := List.forall_mem_cons.mp hmagic
    obtain ⟨hover', hover⟩ := List.forall_mem_cons.mp hover
    have ih := fun saw => tryInSlice_eq rest saw hmagic hover hlimit
    have hzero : 0 + i < 2 ^ 64 := by omega
    rw [tryInSlice, tryCandidates, checkedAddNat_ok hzero, Nat.zero_add]
    show _ = ((source.signatureAt crc32 i >>= _) >>= _).map Prod.fst
    rcases signatureAt_cases crc32 hmagic' with ⟨h, -⟩ | ⟨-, hshort, h⟩ | ⟨hvalid, h⟩ | ⟨hlong, hvalid, h⟩
    · omega
    · rw [h, if_pos (show source.content.length < i + 32 from hshort)]
      exact ih saw
    · rw [h, ← tryInSlice, tryInSlice_valid crc32 hvalid]
      rfl
    · rw [h, ← tryInSlice, tryInSlice_bad crc32 hlong hvalid]
      exact ih true

end ByteSource

/-! What the search gives -/

open ByteSource

/-- The first magic bytes in the window that begin a valid signature are found. Where there are none the
error tells why: an offset so near the end of the 64-bit range that no signature fits, a signature that is
broken, a window that ends before the source does. A slice is searched the same way. -/
theorem find_signature_spec (source : ByteSource) (limit : UInt64) :
    (∀ i, CandidateAt source.content (source.window limit) i → ValidAt crc32 source.content i →
      (∀ j, CandidateAt source.content (source.window limit) j → j < i → ¬ValidAt crc32 source.content j) →
      source.findSignature crc32 limit = .ok (i, storedAt source.content i)) ∧
    ((∀ i, CandidateAt source.content (source.window limit) i → ¬ValidAt crc32 source.content i) →
      ((∃ i, CandidateAt source.content (source.window limit) i ∧ 2 ^ 64 ≤ i + 32) →
        source.findSignature crc32 limit = .error .parse) ∧
      ((∀ i, CandidateAt source.content (source.window limit) i → i + 32 < 2 ^ 64) →
        ((∃ i, CandidateAt source.content (source.window limit) i ∧ i + 32 ≤ source.len) →
          source.findSignature crc32 limit = .error .crc) ∧
        ((∀ i, CandidateAt source.content (source.window limit) i → source.len < i + 32) →
          (limit.toNat < source.len →
            source.findSignature crc32 limit = .error (.resourceLimitExceeded "signature scan" limit)) ∧
          (source.len ≤ limit.toNat → source.findSignature crc32 limit = .error .parse)))) ∧
    (source.len ≤ limit.toNat → source.len < 2 ^ 63 →
      (source.findSignature crc32 limit).map Prod.fst = findSignatureInSlice crc32 source.content) := by
  refine ⟨fun i hmem hi hfirst => find_signature_first crc32 hmem hi hfirst, fun hvalid => ?_, ?_⟩
  · refine ⟨find_signature_overrun crc32 hvalid, fun hover => ?_⟩
    rw [find_signature_none crc32 hvalid hover]
    refine ⟨fun hcomplete => ?_, fun hshort => ?_⟩
    · rw [any_complete.mpr hcomplete]
      rfl
    · have hnone := mt any_complete.mp (not_exists.mpr fun i hi => absurd hi.2 (not_le.mpr (hshort i hi.1)))
      rw [Bool.not_eq_true] at hnone
      rw [hnone]
      exact ⟨fun hlimit => if_pos hlimit, fun hlimit => if_neg (not_lt.mpr hlimit)⟩
  · intro hlimit hslice
    have hwindow : source.window limit = source.content.length := min_eq_left hlimit
    have hoffsets : findMagicOffsets source.content = offsetsBetween source.content 0 (source.window limit - 5) := by
      have hpart := @findMagicOffsets_part source.content 0 source.content.length (by omega)
      have hzero : (fun pos : ℕ => 0 + pos) = id := funext fun pos => Nat.zero_add pos
      rw [hzero, List.map_id, List.drop_zero, List.take_length, Nat.zero_add] at hpart
      rw [hwindow, hpart]
    rw [findSignature_eq, findSignatureInSlice, hoffsets]
    refine (tryInSlice_eq crc32 _ _ (fun j hj => (mem_candidates.mp hj).2) (fun j hj => ?_) hlimit).symm
    have hinside := (mem_candidates.mp hj).1
    have hlen : source.content.length < 2 ^ 63 := hslice
    omega

def nearTheEnd : List UInt8 :=
  List.replicate (2 ^ 64 - 20) 0 ++ (SEVEN_Z_MAGIC ++ List.replicate 13 0)

theorem nearTheEnd_length : nearTheEnd.length = 2 ^ 64 - 1 := by
  rw [nearTheEnd, List.length_append, List.length_append, List.length_replicate, List.length_replicate]
  rfl

theorem nearTheEnd_magic : MagicAt nearTheEnd (2 ^ 64 - 20) := by
  rw [MagicAt, nearTheEnd, List.drop_left' List.length_replicate]
  exact List.take_left

theorem nearTheEnd_no_other {i : ℕ} (h : i + 32 < 2 ^ 64) (hmagic : MagicAt nearTheEnd i) : False := by
  have hlt : i < 2 ^ 64 - 20 := by omega
  have hzero : nearTheEnd[i]? = some 0 := by
    rw [nearTheEnd, List.getElem?_append_left (by rwa [List.length_replicate]), List.getElem?_replicate_of_lt hlt]
  have hfirst : ((nearTheEnd.drop i).take 6)[0]? = some 0x37 := congrArg (·[0]?) hmagic
  rw [List.getElem?_take_of_lt (by decide), List.getElem?_drop, Nat.add_zero, hzero] at hfirst
  exact absurd hfirst (by decide)

/-- No signature is there, whole or broken, and the source is longer than the limit: still it is not the
limit that is reported. -/
theorem limit_not_reported : ∃ (source : ByteSource) (limit : UInt64), ∀ crc32 : List UInt8 → UInt32,
    (∀ i, CandidateAt source.content (source.window limit) i → ¬i + 32 ≤ source.len) ∧
    limit.toNat < source.len ∧ source.findSignature crc32 limit = .error .parse := by
  refine ⟨⟨nearTheEnd, by rw [nearTheEnd_length]; decide⟩, 0xFFFFFFFFFFFFFFFE, fun crc32 => ?_⟩
  have hlen : nearTheEnd.length = 2 ^ 64 - 1 := nearTheEnd_length
  have hwindow : ByteSource.window ⟨nearTheEnd, by rw [nearTheEnd_length]; decide⟩ 0xFFFFFFFFFFFFFFFE = 2 ^ 64 - 2 := by
    rw [ByteSource.window, ByteSource.len, nearTheEnd_length]
    decide +kernel
  have hshort : ∀ i, MagicAt nearTheEnd i → ¬i + 32 ≤ nearTheEnd.length := by
    intro i hi hle
    rw [hlen] at hle
    exact nearTheEnd_no_other (by omega) hi
  refine ⟨fun i hi => hshort i hi.2, ?_, ?_⟩
  · show _ < nearTheEnd.length
    rw [hlen]
    decide +kernel
  · refine find_signature_overrun crc32 (fun i hi hvalid => hshort i hi.2 hvalid.1) ?_
    refine ⟨2 ^ 64 - 20, ⟨?_, nearTheEnd_magic⟩, by omega⟩
    rw [hwindow]
    decide +kernel

end R7z
