import R7z.Decode.Aes

/-! The reader that decrypts AES-256 in cipher block chaining as it goes along. -/

namespace R7z

open Effect Effect.Machine Effect.Reader Groups Cbc

def readExact {ρ : Type} (source : Reader ρ IoError UInt8) :
    (turns n : ℕ) → Machine ρ IoError (List UInt8)
  | 0, _ => pure []
  | turns + 1, n =>
    if n = 0 then pure []
    else do
      let bytes ← source n
      if bytes = [] then fail .unexpectedEof
      else do
        let rest ← readExact source turns (n - bytes.length)
        pure (bytes ++ rest)

/-- `plaintext` is the block that was decrypted last; what is between the position and the length has
still to be handed over. -/
structure Aes256CbcDecryptReader (ρ : Type) where
  inner : ρ
  key : AesKey
  chain : Block
  plaintext : List UInt8
  plaintextPosition : ℕ
  plaintextLength : ℕ
  plaintextSize : Option ℕ
  plaintextRead : ℕ
  ciphertextSize : Option ℕ
  ciphertextRead : ℕ
  expectedCiphertextSize : Option ℕ
  finished : Bool

namespace Aes256CbcDecryptReader

variable {ρ : Type}

/-- A declared size of the ciphertext that is not the one of the padded plaintext; that there is none at
all of an empty plaintext is accepted. -/
def sizesDiffer (ciphertextSize plaintextSize paddedPlaintextSize : Option ℕ) : Bool :=
  match ciphertextSize, paddedPlaintextSize with
  | some ciphertext, some padded => ciphertext != padded && !(plaintextSize == some 0 && ciphertext == 0)
  | _, _ => false

def new (inner : ρ) (key : AesKey) (iv : Block) (ciphertextSize plaintextSize : Option ℕ) :
    Except R7zError (Aes256CbcDecryptReader ρ) :=
  if ciphertextSize.any fun size => size % 16 != 0 then .error .decompression
  else do
    let paddedPlaintextSize ← plaintextSize.mapM encryptedSizeForPlaintext
    if sizesDiffer ciphertextSize plaintextSize paddedPlaintextSize then .error .decompression
    else
      return { inner, key, chain := iv, plaintext := List.replicate 16 0, plaintextPosition := 0,
               plaintextLength := 0, plaintextSize, plaintextRead := 0, ciphertextSize,
               ciphertextRead := 0, finished := false,
               expectedCiphertextSize := ciphertextSize.or paddedPlaintextSize }

/-! A read of the source that was interrupted is made again, so that is never seen here. -/

variable (aes : Aes256) (source : Reader ρ IoError UInt8)

def onInner {α : Type} (m : Machine ρ IoError α) : Machine (Aes256CbcDecryptReader ρ) IoError α :=
  focus Aes256CbcDecryptReader.inner (fun inner reader => { reader with inner := inner }) m

def finish : Machine (Aes256CbcDecryptReader ρ) IoError Bool := do
  modify fun reader => { reader with finished := true }
  pure false

def decryptBlock (ciphertext : List UInt8) : Machine (Aes256CbcDecryptReader ρ) IoError Bool := do
  let reader ← get
  let plaintext := xorBlock ((aes reader.key).symm (block 16 ciphertext)) reader.chain
  modify fun reader => { reader with chain := block 16 ciphertext }
  if 2 ^ 64 ≤ reader.ciphertextRead + 16 then fail .invalidData
  else do
    modify fun reader =>
      { reader with
        ciphertextRead := reader.ciphertextRead + 16
        plaintext := plaintext.toList
        plaintextPosition := 0
        plaintextLength := match reader.plaintextSize with
          | some size => min (size - reader.plaintextRead) 16
          | none => 16 }
    pure true

def readBlock : Machine (Aes256CbcDecryptReader ρ) IoError Bool := do
  let reader ← get
  if reader.finished then pure false
  else if reader.expectedCiphertextSize = some reader.ciphertextRead then do
    -- all that was expected is read, so nothing may follow
    let extra ← onInner (source 1)
    if extra.length ≠ 0 then fail .invalidData else finish
  else do
    let first ← onInner (source 1)
    if first.length = 0 then
      if reader.expectedCiphertextSize.isSome ∧
          ¬(reader.ciphertextSize = none ∧ reader.plaintextSize = some 0 ∧ reader.ciphertextRead = 0) then
        fail .unexpectedEof
      else finish
    else do
      let rest ← onInner (readExact source 15 15)
      decryptBlock aes (first ++ rest)

/-- How often a block is read at most before there is plaintext: once for each of those that are expected
and once for the end. -/
def turns (reader : Aes256CbcDecryptReader ρ) : ℕ :=
  match reader.expectedCiphertextSize with
  | some size => (size - reader.ciphertextRead) / 16 + 2
  | none => 2

def fill : (turns : ℕ) → Machine (Aes256CbcDecryptReader ρ) IoError Bool
  | 0 => pure false
  | turns + 1 => do
    let reader ← get
    if reader.plaintextPosition = reader.plaintextLength then do
      let more ← readBlock aes source
      if more then fill turns else pure false
    else pure true

def handOver (n : ℕ) : Machine (Aes256CbcDecryptReader ρ) IoError (List UInt8) := do
  let reader ← get
  let length := min n (reader.plaintextLength - reader.plaintextPosition)
  modify fun reader => { reader with plaintextPosition := reader.plaintextPosition + length }
  if 2 ^ 64 ≤ reader.plaintextRead + length then fail .invalidData
  else do
    modify fun reader => { reader with plaintextRead := reader.plaintextRead + length }
    pure ((reader.plaintext.drop reader.plaintextPosition).take length)

def read : Reader (Aes256CbcDecryptReader ρ) IoError UInt8 := fun n => do
  let reader ← get
  if n = 0 then pure []
  else do
    let more ← fill aes source reader.turns
    if more then handOver n else pure []

end Aes256CbcDecryptReader

/-! What it hands over -/

def paddedSize (size : ℕ) : ℕ := max (nextMultipleOf size 16) 16

theorem encryptedSizeForPlaintext_eq {size : ℕ} (h : size + 15 < 2 ^ 64) :
    encryptedSizeForPlaintext size = .ok (paddedSize size) := by
  unfold encryptedSizeForPlaintext paddedSize nextMultipleOf
  split
  · rename_i hzero
    rw [hzero]
    rfl
  · have hmax : max ((size + (16 - 1)) / 16 * 16) 16 = (size + 15) / 16 * 16 := by omega
    rw [hmax]

/-- A ciphertext of the padded length, which is what was declared if anything was; an empty plaintext may
have none. -/
def Fits (content : List UInt8) (size : ℕ) (ciphertextSize : Option ℕ) : Prop :=
  (content.length = paddedSize size ∧ (ciphertextSize = none ∨ ciphertextSize = some (paddedSize size))) ∨
    (size = 0 ∧ content = [] ∧ (ciphertextSize = none ∨ ciphertextSize = some 0))

def Expects (size : ℕ) (ciphertextSize : Option ℕ) (expected : ℕ) : Prop :=
  (expected = paddedSize size ∧ (ciphertextSize = none ∨ ciphertextSize = some expected)) ∨
    (size = 0 ∧ ciphertextSize = some 0 ∧ expected = 0)

theorem Expects.dvd {size expected : ℕ} {ciphertextSize : Option ℕ}
    (h : Expects size ciphertextSize expected) : 16 ∣ expected := by
  rcases h with ⟨rfl, -⟩ | ⟨-, -, rfl⟩
  · rw [paddedSize, nextMultipleOf]
    omega
  · exact dvd_zero 16

theorem paddedSize_pos (size : ℕ) : 0 < paddedSize size := lt_max_of_lt_right (by decide)

theorem Expects.fits {content : List UInt8} {size expected : ℕ} {ciphertextSize : Option ℕ}
    (h : Expects size ciphertextSize expected) (hlength : content.length = expected) :
    Fits content size ciphertextSize := by
  rcases h with ⟨rfl, hdeclared⟩ | ⟨hzero, hdeclared, rfl⟩
  · exact .inl ⟨hlength, hdeclared⟩
  · exact .inr ⟨hzero, List.length_eq_zero_iff.mp hlength, .inr hdeclared⟩

theorem Expects.length {content : List UInt8} {size expected : ℕ} {ciphertextSize : Option ℕ}
    (h : Expects size ciphertextSize expected) (hfits : Fits content size ciphertextSize) :
    content.length = expected ∨ (size = 0 ∧ content = [] ∧ ciphertextSize = none) := by
  rcases h with ⟨rfl, hdeclared⟩ | ⟨rfl, rfl, rfl⟩
  · rcases hfits with ⟨hlength, -⟩ | ⟨hzero, hnil, hnone | hnone⟩
    · exact .inl hlength
    · exact .inr ⟨hzero, hnil, hnone⟩
    · have hpos := paddedSize_pos size
      rcases hdeclared with hdeclared | hdeclared
      · cases hdeclared.symm.trans hnone
      · have heq := Option.some.inj (hdeclared.symm.trans hnone)
        omega
  · rcases hfits with ⟨-, hdeclared | hdeclared⟩ | ⟨-, hnil, -⟩
    · cases hdeclared
    · have hpos := paddedSize_pos 0
      have heq := Option.some.inj hdeclared
      omega
    · exact .inl (List.length_eq_zero_iff.mpr hnil)

section
variable (aes : Aes256) (key : AesKey) (iv : Block)

def decryptedBytes (content : List UInt8) : List UInt8 :=
  bytes (aes256CbcDec aes key iv (blocks 16 content))

theorem length_decryptedBytes (content : List UInt8) :
    (decryptedBytes aes key iv content).length = content.length / 16 * 16 := by
  rw [decryptedBytes, length_bytes, aes256CbcDec, length_decryptBlocks, length_blocks (by decide)]

theorem decryptedBytes_append {content more : List UInt8} (h : 16 ∣ content.length)
    (hmore : more.length = 16) : decryptedBytes aes key iv (content ++ more) =
      decryptedBytes aes key iv content ++
        (xorBlock ((aes key).symm (block 16 more)) (lastBlock iv (blocks 16 content))).toList := by
  rw [decryptedBytes, blocks_append (by decide), tail_eq_nil h, List.nil_append,
    blocks_single (by decide) hmore, aes256CbcDec, decryptBlocks_append, bytes_append]
  exact congrArg (_ ++ ·) (bytes_singleton _)

/-- What a ciphertext decrypts to does not depend on what follows its blocks. -/
theorem decryptedBytes_prefix (content more : List UInt8) :
    decryptedBytes aes key iv content <+: decryptedBytes aes key iv (content ++ more) := by
  rw [decryptedBytes, decryptedBytes, blocks_append (by decide), aes256CbcDec, decryptBlocks_append,
    bytes_append]
  exact List.prefix_append _ _

end

theorem readExact_meets {ρ : Type} {source : Reader ρ IoError UInt8} {R : ρ → List UInt8 → Prop}
    (h : Provides source R) : ∀ (turns n : ℕ) (left : List UInt8), n ≤ turns →
      Meets (fun s => R s left) (readExact source turns n)
        (fun bytes s => bytes.length = n ∧ ∃ rest, left = bytes ++ rest ∧ R s rest)
        (fun _ _ => left.length < n)
  | 0, n, left, hturns => fun s hs => ⟨(Nat.le_zero.mp hturns).symm, left, rfl, hs⟩
  | turns + 1, n, left, hturns => by
    refine fun s hs => Outcome.ite (fun hn => ⟨hn.symm, left, rfl, hs⟩) fun hn => ?_
    have hpos := Nat.pos_of_ne_zero hn
    rcases hread : source n s with ⟨e | items, s'⟩
    · exact ((h n left).error hs hread).elim
    · obtain ⟨hle, hempty, rest, rfl, hrest⟩ := (h n left).ok hs hread
      rw [bind_of_ok hread]
      refine Outcome.ite (fun hnil => ?_) fun hsome => ?_
      · change (items ++ rest).length < n
        rw [hempty hnil hpos]
        exact hpos
      · have hlength := List.length_pos_iff.mpr hsome
        have hmore := readExact_meets h turns (n - items.length) rest (by omega) s' hrest
        rcases hrun : readExact source turns (n - items.length) s' with ⟨e | bytes, s''⟩
        · rw [hrun] at hmore
          rw [bind_of_error hrun]
          change (items ++ rest).length < n
          rw [List.length_append]
          change rest.length < n - items.length at hmore
          omega
        · rw [hrun] at hmore
          rw [bind_of_ok hrun]
          obtain ⟨hbytes, rest', rfl, hrest'⟩ := hmore
          refine ⟨?_, rest', (List.append_assoc _ _ _).symm, hrest'⟩
          rw [List.length_append, hbytes]
          omega


namespace Aes256CbcDecryptReader

variable {ρ : Type} {aes : Aes256} {source : Reader ρ IoError UInt8} {R : ρ → List UInt8 → Prop}
  {key : AesKey} {iv : Block} {content : List UInt8} {size expected : ℕ} {ciphertextSize : Option ℕ}

/-- `k` blocks of the content have been read, and `handed` bytes of the plaintext handed over. -/
structure Decrypts (aes : Aes256) (R : ρ → List UInt8 → Prop) (key : AesKey) (iv : Block)
    (content : List UInt8) (size expected : ℕ) (ciphertextSize : Option ℕ) (k handed : ℕ)
    (reader : Aes256CbcDecryptReader ρ) : Prop where
  key_eq : reader.key = key
  source : R reader.inner (content.drop (16 * k))
  within : 16 * k ≤ content.length
  ciphertextRead_eq : reader.ciphertextRead = 16 * k
  chain_eq : reader.chain = lastBlock iv (blocks 16 (content.take (16 * k)))
  plaintextSize_eq : reader.plaintextSize = some size
  ciphertextSize_eq : reader.ciphertextSize = ciphertextSize
  expected_eq : reader.expectedCiphertextSize = some expected
  expected_le : 16 * k ≤ expected
  plaintextRead_eq : reader.plaintextRead = handed
  handed_le : handed ≤ min size (16 * k)
  position_le : reader.plaintextPosition ≤ reader.plaintextLength ∧
    reader.plaintextLength ≤ reader.plaintext.length
  waiting : (reader.plaintext.take reader.plaintextLength).drop reader.plaintextPosition =
    ((decryptedBytes aes key iv (content.take (16 * k))).take size).drop handed
  finished : reader.finished = true → Fits content size ciphertextSize ∧ content.length = 16 * k

theorem Decrypts.length_take {k handed : ℕ} {reader : Aes256CbcDecryptReader ρ}
    (h : Decrypts aes R key iv content size expected ciphertextSize k handed reader) :
    (content.take (16 * k)).length = 16 * k := List.length_take_of_le h.within

theorem Decrypts.length_waiting {k handed : ℕ} {reader : Aes256CbcDecryptReader ρ}
    (h : Decrypts aes R key iv content size expected ciphertextSize k handed reader) :
    reader.plaintextLength - reader.plaintextPosition = min size (16 * k) - handed := by
  have hlength := congrArg List.length h.waiting
  rw [List.length_drop, List.length_take_of_le h.position_le.2, List.length_drop, List.length_take,
    length_decryptedBytes, h.length_take] at hlength
  omega

theorem decryptBlock_meets (hsize : size + 15 < 2 ^ 64) (hexpected : Expects size ciphertextSize expected)
    {k handed : ℕ} {reader : Aes256CbcDecryptReader ρ} {inner : ρ} {first rest : List UInt8}
    (h : Decrypts aes R key iv content size expected ciphertextSize k handed reader)
    (hempty : handed = min size (16 * k)) (hmore : 16 * k < expected)
    (hunfinished : reader.finished = false)
    (hcontent : content.drop (16 * k) = first ++ rest) (hfirst : first.length = 16) (hrest : R inner rest) :
    ∃ reader', decryptBlock aes first { reader with inner := inner } = (.ok true, reader') ∧
      Decrypts aes R key iv content size expected ciphertextSize (k + 1) handed reader' := by
  have hdvd := hexpected.dvd
  have hpadded : expected ≤ max (size + 15) 16 := by
    rcases hexpected with ⟨rfl, -⟩ | ⟨-, -, rfl⟩
    · rw [paddedSize, nextMultipleOf]
      omega
    · exact Nat.zero_le _
  have hsplit : content = content.take (16 * k) ++ (first ++ rest) := by
    rw [← hcontent, List.take_append_drop]
  have hfull : (content.take (16 * k) ++ first).length = 16 * (k + 1) := by
    rw [List.length_append, h.length_take, hfirst, Nat.mul_succ]
  -- the block is the next one of the content
  have htake : content.take (16 * (k + 1)) = content.take (16 * k) ++ first := by
    conv_lhs => rw [hsplit, ← List.append_assoc]
    exact List.take_left' hfull
  have hdrop : content.drop (16 * (k + 1)) = rest := by
    conv_lhs => rw [hsplit, ← List.append_assoc]
    exact List.drop_left' hfull
  have hlength := congrArg List.length hsplit
  rw [← List.append_assoc, List.length_append, hfull] at hlength
  have htakeDvd : 16 ∣ (content.take (16 * k)).length := by
    rw [h.length_take]
    exact Nat.dvd_mul_right 16 k
  let decrypted := xorBlock ((aes key).symm (block 16 first)) (lastBlock iv (blocks 16 (content.take (16 * k))))
  -- and its plaintext is what comes behind what was handed over
  have hwaiting : (decrypted.toList.take (min (size - handed) 16)).drop 0 =
      ((decryptedBytes aes key iv (content.take (16 * (k + 1)))).take size).drop handed := by
    have hbytes : (decryptedBytes aes key iv (content.take (16 * k))).length = 16 * k := by
      rw [length_decryptedBytes, h.length_take]
      omega
    rw [htake, decryptedBytes_append aes key iv htakeDvd hfirst, List.drop_zero, hempty]
    rcases Nat.le_total size (16 * k) with hle | hle
    · rw [min_eq_left hle, Nat.sub_self, Nat.zero_min, List.take_zero, List.drop_eq_nil_of_le]
      exact List.length_take_le _ _
    · rw [min_eq_right hle, List.take_append, hbytes, List.take_of_length_le (hbytes.trans_le hle),
        List.drop_left' hbytes, ← List.take_take]
      exact congrArg _ (List.take_of_length_le Vector.length_toList.le)
  have hplain : xorBlock ((aes reader.key).symm (block 16 first)) reader.chain = decrypted := by
    rw [h.key_eq, h.chain_eq]
  have hroom : ¬2 ^ 64 ≤ reader.ciphertextRead + 16 := by
    rw [h.ciphertextRead_eq]
    omega
  refine ⟨{ reader with
    inner := inner, chain := block 16 first, ciphertextRead := 16 * k + 16, plaintext := decrypted.toList
    plaintextPosition := 0, plaintextLength := min (size - handed) 16 }, ?_, ?_⟩
  · unfold decryptBlock
    refine (bind_of_ok rfl).trans ((bind_of_ok rfl).trans ?_)
    dsimp only
    rw [if_neg hroom, hplain, h.ciphertextRead_eq, h.plaintextSize_eq, h.plaintextRead_eq]
    rfl
  · refine ⟨h.key_eq, ?_, by omega, ?_, ?_, h.plaintextSize_eq, h.ciphertextSize_eq, h.expected_eq,
      by omega, h.plaintextRead_eq, by omega, ⟨Nat.zero_le _, ?_⟩, hwaiting, ?_⟩
    · rw [hdrop]
      exact hrest
    · exact (Nat.mul_succ 16 k).symm
    · rw [htake, blocks_append (by decide), tail_eq_nil htakeDvd, List.nil_append,
        blocks_single (by decide) hfirst, lastBlock_append]
      rfl
    · rw [Vector.length_toList]
      exact min_le_right _ _
    · intro hfinished
      exact absurd (hunfinished.symm.trans hfinished) Bool.false_ne_true

theorem onInner_ok {α : Type} {m : Machine ρ IoError α} {reader : Aes256CbcDecryptReader ρ} {a : α} {inner : ρ}
    (h : m reader.inner = (.ok a, inner)) : onInner m reader = (.ok a, { reader with inner := inner }) := by
  rw [onInner, focus, h]

theorem onInner_error {α : Type} {m : Machine ρ IoError α} {reader : Aes256CbcDecryptReader ρ} {e : IoError}
    {inner : ρ} (h : m reader.inner = (.error e, inner)) :
    onInner m reader = (.error e, { reader with inner := inner }) := by
  rw [onInner, focus, h]

theorem Decrypts.finish {k handed : ℕ} {reader : Aes256CbcDecryptReader ρ} {inner : ρ}
    (h : Decrypts aes R key iv content size expected ciphertextSize k handed reader)
    (hinner : R inner []) (hend : content.drop (16 * k) = []) (hfits : Fits content size ciphertextSize) :
    Decrypts aes R key iv content size expected ciphertextSize k handed
      { reader with inner := inner, finished := true } :=
  ⟨h.key_eq, hend ▸ hinner, h.within, h.ciphertextRead_eq, h.chain_eq, h.plaintextSize_eq,
    h.ciphertextSize_eq, h.expected_eq, h.expected_le, h.plaintextRead_eq, h.handed_le, h.position_le,
    h.waiting, fun _ => ⟨hfits, (List.drop_eq_nil_iff.mp hend).antisymm h.within⟩⟩

/-- A block is read when nothing of the one before waits. There is one more, or the content is at its
end and fits, or it does not fit. -/
theorem readBlock_meets (hsource : Provides source R) (hsize : size + 15 < 2 ^ 64)
    (hexpected : Expects size ciphertextSize expected) {k handed : ℕ} (hempty : handed = min size (16 * k)) :
    Meets (Decrypts aes R key iv content size expected ciphertextSize k handed) (readBlock aes source)
      (fun more reader =>
        if more = true then 16 * k < expected ∧
          Decrypts aes R key iv content size expected ciphertextSize (k + 1) handed reader
        else content.length = 16 * k ∧ Fits content size ciphertextSize ∧
          Decrypts aes R key iv content size expected ciphertextSize k handed reader)
      (fun _ _ => ¬Fits content size ciphertextSize) := by
  refine fun reader h => Outcome.ite (fun hfinished => ?_) fun hfinished => Outcome.ite (fun hread => ?_)
    fun hread => ?_
  · -- the end was found before
    obtain ⟨hfits, hlength⟩ := h.finished hfinished
    exact ⟨hlength, hfits, h⟩
  · have hk : expected = 16 * k := by
      rw [h.expected_eq, h.ciphertextRead_eq] at hread
      exact Option.some.inj hread
    rcases hrun : source 1 reader.inner with ⟨e | extra, inner⟩
    · exact ((hsource 1 _).error h.source hrun).elim
    · obtain ⟨-, hnone, rest, hcontent, hrest⟩ := (hsource 1 _).ok h.source hrun
      rw [bind_of_ok (onInner_ok hrun)]
      refine Outcome.ite (fun hextra => ?_) fun hextra => ?_
      · -- there is more than was expected
        have hlength := congrArg List.length hcontent
        rw [List.length_drop, List.length_append] at hlength
        intro hfits
        rcases hexpected.length hfits with hfits | ⟨-, hnil, -⟩
        · omega
        · rw [hnil, List.length_nil] at hlength
          omega
      · -- all that was expected is read, and nothing follows
        have hnil := List.length_eq_zero_iff.mp (not_not.mp hextra)
        have hend := hnone hnil one_pos
        rw [hend, eq_comm, List.append_eq_nil_iff] at hcontent
        have hlength := (List.drop_eq_nil_iff.mp hend).antisymm h.within
        have hfits := hexpected.fits (hlength.trans hk.symm)
        exact ⟨hlength, hfits, h.finish (hcontent.2 ▸ hrest) hend hfits⟩
  · have hk : expected ≠ 16 * k := by
      rw [h.expected_eq, h.ciphertextRead_eq] at hread
      exact fun hk => hread (congrArg some hk)
    rcases hrun : source 1 reader.inner with ⟨e | first, inner⟩
    · exact ((hsource 1 _).error h.source hrun).elim
    · obtain ⟨hone, hnone, rest, hcontent, hrest⟩ := (hsource 1 _).ok h.source hrun
      rw [bind_of_ok (onInner_ok hrun)]
      refine Outcome.ite (fun hfirst => ?_) fun hfirst => ?_
      · have hnil := List.length_eq_zero_iff.mp hfirst
        have hend := hnone hnil one_pos
        rw [hend, eq_comm, List.append_eq_nil_iff] at hcontent
        have hlength := (List.drop_eq_nil_iff.mp hend).antisymm h.within
        refine Outcome.ite (fun hshort => ?_) fun hallowed => ?_
        · -- the content is shorter than what was expected
          rw [h.expected_eq, h.ciphertextSize_eq, h.plaintextSize_eq, h.ciphertextRead_eq] at hshort
          intro hfits
          rcases hexpected.length hfits with hfits | ⟨rfl, hempty, hundeclared⟩
          · exact hk (hfits.symm.trans hlength)
          · rw [hempty, List.length_nil] at hlength
            exact hshort.2 ⟨hundeclared, rfl, hlength.symm⟩
        · -- no ciphertext at all is let through where none is declared and none is needed
          rw [h.expected_eq, h.ciphertextSize_eq, h.plaintextSize_eq, h.ciphertextRead_eq,
            Option.isSome_some, not_and_not_right] at hallowed
          obtain ⟨hundeclared, hzero, hk0⟩ := hallowed rfl
          have hfits : Fits content size ciphertextSize :=
            .inr ⟨Option.some.inj hzero, List.length_eq_zero_iff.mp (hlength.trans hk0), .inl hundeclared⟩
          exact ⟨hlength, hfits, h.finish (hcontent.2 ▸ hrest) hend hfits⟩
      · have hexact := readExact_meets hsource 15 15 rest le_rfl inner hrest
        have hlength := congrArg List.length hcontent
        rw [List.length_drop, List.length_append] at hlength
        rcases hrun' : readExact source 15 15 inner with ⟨e | bytes, inner'⟩
        · -- the content ends within a block
          rw [hrun'] at hexact
          rw [bind_of_error (onInner_error hrun')]
          change rest.length < 15 at hexact
          intro hfits
          have hdvd := hexpected.dvd
          rcases hexpected.length hfits with hfits | ⟨-, hnil, -⟩
          · omega
          · rw [hnil, List.length_nil] at hlength
            omega
        · rw [hrun'] at hexact
          rw [bind_of_ok (onInner_ok hrun')]
          obtain ⟨hbytes, rest', rfl, hrest'⟩ := hexact
          -- a whole block
          have hblock : (first ++ bytes).length = 16 := by
            rw [List.length_append]
            omega
          have hmore : 16 * k < expected := lt_of_le_of_ne h.expected_le hk.symm
          rw [← List.append_assoc] at hcontent
          obtain ⟨reader', hdecrypt, hdecrypts⟩ := decryptBlock_meets hsize hexpected h hempty hmore
            (Bool.eq_false_iff.mpr hfinished) hcontent hblock hrest'
          change Outcome _ _ (decryptBlock aes (first ++ bytes) { reader with inner := inner' })
          rw [hdecrypt]
          exact ⟨hmore, hdecrypts⟩

theorem fill_meets (hsource : Provides source R) (hsize : size + 15 < 2 ^ 64)
    (hexpected : Expects size ciphertextSize expected) {handed : ℕ} : ∀ turns k,
      (expected - 16 * k) / 16 + 1 ≤ turns →
      Meets (Decrypts aes R key iv content size expected ciphertextSize k handed) (fill aes source turns)
        (fun more reader => ∃ k,
          Decrypts aes R key iv content size expected ciphertextSize k handed reader ∧
          if more = true then reader.plaintextPosition ≠ reader.plaintextLength
          else content.length = 16 * k ∧ Fits content size ciphertextSize ∧ handed = min size (16 * k))
        (fun _ _ => ¬Fits content size ciphertextSize)
  | 0, k, hturns => absurd hturns (Nat.not_succ_le_zero _)
  | turns + 1, k, hturns => by
    refine fun reader h => Outcome.ite (fun hdone => ?_) fun hwaiting => ⟨k, h, hwaiting⟩
    have hempty : handed = min size (16 * k) := by
      have hlength := h.length_waiting
      have hle := h.handed_le
      omega
    have hblock := readBlock_meets hsource hsize hexpected hempty reader h
    rcases hrun : readBlock aes source reader with ⟨e | more, reader'⟩
    · rw [hrun] at hblock
      rw [bind_of_error hrun]
      exact hblock
    · rw [hrun] at hblock
      rw [bind_of_ok hrun]
      refine Outcome.ite (fun hmore => ?_) fun hend => ?_
      · obtain ⟨hlt, hnext⟩ := (if_pos hmore).mp hblock
        have hdvd := hexpected.dvd
        exact fill_meets hsource hsize hexpected turns (k + 1) (by omega) reader' hnext
      · obtain ⟨hlength, hfits, hsame⟩ := (if_neg hend).mp hblock
        exact ⟨k, hsame, hlength, hfits, hempty⟩

def plain (aes : Aes256) (key : AesKey) (iv : Block) (content : List UInt8) (size : ℕ) : List UInt8 :=
  (decryptedBytes aes key iv content).take size

def Reading (aes : Aes256) (R : ρ → List UInt8 → Prop) (key : AesKey) (iv : Block) (content : List UInt8)
    (size expected : ℕ) (ciphertextSize : Option ℕ) (reader : Aes256CbcDecryptReader ρ)
    (left : List UInt8) : Prop :=
  ∃ k handed, Decrypts aes R key iv content size expected ciphertextSize k handed reader ∧
    left = (plain aes key iv content size).drop handed

theorem handOver_meets (hsize : size + 15 < 2 ^ 64) {k handed n : ℕ} (hn : 0 < n)
    {reader : Aes256CbcDecryptReader ρ}
    (h : Decrypts aes R key iv content size expected ciphertextSize k handed reader)
    (hwaiting : reader.plaintextPosition ≠ reader.plaintextLength) :
    ∃ items reader', handOver n reader = (.ok items, reader') ∧ items ≠ [] ∧
      Gives (Reading aes R key iv content size expected ciphertextSize) n
        ((plain aes key iv content size).drop handed) items reader' := by
  let length := min n (reader.plaintextLength - reader.plaintextPosition)
  let waiting := (reader.plaintext.take reader.plaintextLength).drop reader.plaintextPosition
  have hlength := h.length_waiting
  have hle := h.handed_le
  have hposition := h.position_le
  have hpos : 0 < length := by omega
  have hroom : ¬2 ^ 64 ≤ reader.plaintextRead + length := by
    rw [h.plaintextRead_eq]
    omega
  have hwait : waiting.length = reader.plaintextLength - reader.plaintextPosition := by
    rw [List.length_drop, List.length_take_of_le hposition.2]
  have hitems : (reader.plaintext.drop reader.plaintextPosition).take length = waiting.take length := by
    change _ = List.take length (List.drop _ (List.take _ _))
    rw [List.drop_take, List.take_take, min_eq_left (min_le_right _ _)]
  have htaken : (waiting.take length).length = length := List.length_take_of_le (hwait ▸ min_le_right _ _)
  -- what waits is the front of what is left of the plaintext
  obtain ⟨more, hmore⟩ : waiting <+: (plain aes key iv content size).drop handed := by
    have hprefix := decryptedBytes_prefix aes key iv (content.take (16 * k)) (content.drop (16 * k))
    rw [List.take_append_drop] at hprefix
    have hwaits : waiting = _ := h.waiting
    rw [hwaits]
    exact (List.IsPrefix.take hprefix size).drop handed
  have hleft : (plain aes key iv content size).drop handed =
      waiting.take length ++ (plain aes key iv content size).drop (handed + length) := by
    rw [← List.drop_drop, ← hmore, List.drop_append_of_le_length (hwait ▸ min_le_right _ _),
      ← List.append_assoc, List.take_append_drop]
  refine ⟨waiting.take length, { reader with
    plaintextPosition := reader.plaintextPosition + length, plaintextRead := reader.plaintextRead + length },
    ?_, ?_, ?_, ?_, _, hleft, k, handed + length, ?_, rfl⟩
  · unfold handOver
    refine (bind_of_ok rfl).trans ((bind_of_ok rfl).trans ?_)
    dsimp only
    rw [if_neg hroom, ← hitems]
    rfl
  · intro hnil
    rw [hnil, List.length_nil] at htaken
    omega
  · exact htaken.trans_le (min_le_left _ _)
  · intro hnil
    rw [hnil, List.length_nil] at htaken
    omega
  · refine ⟨h.key_eq, h.source, h.within, h.ciphertextRead_eq, h.chain_eq, h.plaintextSize_eq,
      h.ciphertextSize_eq, h.expected_eq, h.expected_le, congrArg (· + length) h.plaintextRead_eq, by omega,
      ⟨by dsimp only; omega, hposition.2⟩, ?_, h.finished⟩
    rw [← List.drop_drop, h.waiting, List.drop_drop]

theorem read_meets (hsource : Provides source R) (hsize : size + 15 < 2 ^ 64)
    (hexpected : Expects size ciphertextSize expected) (n : ℕ) (left : List UInt8) :
    Meets (fun reader => Reading aes R key iv content size expected ciphertextSize reader left)
      (read aes source n)
      (fun items reader =>
        Gives (Reading aes R key iv content size expected ciphertextSize) n left items reader ∧
          (items = [] → 0 < n → Fits content size ciphertextSize))
      (fun _ _ => ¬Fits content size ciphertextSize) := by
  rintro reader ⟨k, handed, h, rfl⟩
  refine Outcome.ite (fun hn => ?_) fun hn => ?_
  · refine ⟨⟨Nat.zero_le n, fun _ hpos => absurd hn hpos.ne', _, rfl, k, handed, h, rfl⟩,
      fun _ hpos => absurd hn hpos.ne'⟩
  · have hpos := Nat.pos_of_ne_zero hn
    have hturns : (expected - 16 * k) / 16 + 1 ≤ reader.turns := by
      rw [turns, h.expected_eq, h.ciphertextRead_eq]
      exact Nat.le_succ _
    have hfill := fill_meets hsource hsize hexpected reader.turns k hturns reader h
    rcases hrun : fill aes source reader.turns reader with ⟨e | more, reader'⟩
    · rw [hrun] at hfill
      rw [bind_of_error hrun]
      exact hfill
    · rw [hrun] at hfill
      rw [bind_of_ok hrun]
      obtain ⟨k', h', hcase⟩ := hfill
      refine Outcome.ite (fun hmore => ?_) fun hend => ?_
      · obtain ⟨items, reader'', hover, hsome, hgives⟩ := handOver_meets hsize hpos h' ((if_pos hmore).mp hcase)
        rw [hover]
        exact ⟨hgives, fun hnil => absurd hnil hsome⟩
      · obtain ⟨hlength, hfits, hhanded⟩ := (if_neg hend).mp hcase
        have hnone : (plain aes key iv content size).drop handed = [] := by
          rw [List.drop_eq_nil_iff, plain, List.length_take, length_decryptedBytes, hlength, hhanded]
          omega
        exact ⟨⟨Nat.zero_le n, fun _ _ => hnone, _, rfl, k', handed, h', rfl⟩, fun _ _ => hfits⟩

theorem new_eq (hsize : size + 15 < 2 ^ 64) (inner : ρ) (key : AesKey) (iv : Block)
    (ciphertextSize : Option ℕ) :
    (∃ e, new inner key iv ciphertextSize (some size) = .error e ∧
        ciphertextSize ≠ none ∧ ciphertextSize ≠ some (paddedSize size)) ∨
    ∃ expected, Expects size ciphertextSize expected ∧
      new inner key iv ciphertextSize (some size) =
        .ok { inner, key, chain := iv, plaintext := List.replicate 16 0, plaintextPosition := 0,
              plaintextLength := 0, plaintextSize := some size, plaintextRead := 0, ciphertextSize,
              ciphertextRead := 0, finished := false, expectedCiphertextSize := some expected } := by
  have hpadded : (some size).mapM encryptedSizeForPlaintext = .ok (some (paddedSize size)) := by
    rw [Option.mapM_some, encryptedSizeForPlaintext_eq hsize]
    rfl
  unfold new
  rw [hpadded]
  cases ciphertextSize with
  | none => exact .inr ⟨paddedSize size, .inl ⟨rfl, .inl rfl⟩, rfl⟩
  | some c =>
    by_cases hc : c = paddedSize size
    · subst hc
      have haligned : ((some (paddedSize size)).any fun size => size % 16 != 0) = false := by
        rw [Option.any_some, paddedSize, nextMultipleOf, bne_eq_false_iff_eq]
        omega
      have hsame : sizesDiffer (some (paddedSize size)) (some size) (some (paddedSize size)) = false := by
        rw [sizesDiffer, bne_self_eq_false, Bool.false_and]
      refine .inr ⟨paddedSize size, .inl ⟨rfl, .inr rfl⟩, ?_⟩
      rw [if_neg (by rw [haligned]; exact Bool.false_ne_true)]
      refine (if_neg ?_).trans rfl
      rw [hsame]
      exact Bool.false_ne_true
    · by_cases hzero : size = 0 ∧ c = 0
      · obtain ⟨rfl, rfl⟩ := hzero
        exact .inr ⟨0, .inr ⟨rfl, rfl, rfl⟩, rfl⟩
      · refine .inl ⟨.decompression, ?_, Option.some_ne_none c, fun h => hc (Option.some.inj h)⟩
        have hdiffer : sizesDiffer (some c) (some size) (some (paddedSize size)) = true := by
          have hboth : ¬size = 0 ∨ ¬c = 0 := not_and_or.mp hzero
          simpa [sizesDiffer, hc] using hboth
        split
        · rfl
        · exact if_pos hdiffer

theorem new_reading (hsize : size + 15 < 2 ^ 64) {inner : ρ} (hinner : R inner content)
    {reader : Aes256CbcDecryptReader ρ} (h : new inner key iv ciphertextSize (some size) = .ok reader) :
    ∃ expected, Expects size ciphertextSize expected ∧
      Reading aes R key iv content size expected ciphertextSize reader (plain aes key iv content size) := by
  rcases new_eq hsize inner key iv ciphertextSize with ⟨e, herror, -⟩ | ⟨expected, hexpected, hok⟩
  · rw [herror] at h
    cases h
  · rw [hok] at h
    cases h
    have hblocks : blocks 16 (content.take (16 * 0)) = [] := by
      rw [Nat.mul_zero, List.take_zero]
      exact blocks_short (by decide)
    refine ⟨expected, hexpected, 0, 0, ?_, rfl⟩
    refine ⟨rfl, hinner, Nat.zero_le _, rfl, ?_, rfl, rfl, rfl, Nat.zero_le _, rfl, Nat.zero_le _,
      ⟨le_rfl, Nat.zero_le _⟩, ?_, fun h => absurd h Bool.false_ne_true⟩
    · rw [hblocks]
      rfl
    · rw [decryptedBytes, hblocks]
      exact List.take_nil.symm

end Aes256CbcDecryptReader

theorem length_padded (data : List UInt8) :
    (data ++ List.replicate (paddedSize data.length - data.length) (0 : UInt8)).length =
      paddedSize data.length := by
  rw [List.length_append, List.length_replicate, paddedSize, nextMultipleOf]
  omega

theorem length_encryptAes256CbcZeroPad (aes : Aes256) (data : List UInt8) (key : AesKey) (iv : Block) :
    (encryptAes256CbcZeroPad aes data key iv).length = paddedSize data.length := by
  have hdvd : 16 ∣ paddedSize data.length := by
    rw [paddedSize, nextMultipleOf]
    omega
  have hlength := length_padded data
  unfold encryptAes256CbcZeroPad
  rw [length_bytes, aes256CbcEnc, length_encryptBlocks, length_blocks (by decide)]
  exact (congrArg (· / 16 * 16) hlength).trans (Nat.div_mul_cancel hdvd)

theorem plain_encrypt (aes : Aes256) (data : List UInt8) (key : AesKey) (iv : Block) :
    Aes256CbcDecryptReader.plain aes key iv (encryptAes256CbcZeroPad aes data key iv) data.length = data := by
  have hdvd : 16 ∣ (data ++ List.replicate (paddedSize data.length - data.length) (0 : UInt8)).length := by
    rw [length_padded, paddedSize, nextMultipleOf]
    omega
  unfold Aes256CbcDecryptReader.plain decryptedBytes encryptAes256CbcZeroPad
  rw [blocks_bytes (by decide), aes256CbcDec, aes256CbcEnc,
    decrypt_encryptBlocks xorBlock xorBlock_xorBlock]
  exact (congrArg (List.take data.length) (bytes_blocks (by decide) hdvd)).trans List.take_left

/-- Whatever pieces a plaintext is written in, the writer emits what it is encrypted to at once, and counts
its bytes. Whatever pieces this is then read in, the reader hands the plaintext over and reports the end.
Of a content that does not fit the sizes it reads no end: before the first error there are only bytes. -/
theorem aes_streams (aes : Aes256) (key : AesKey) (iv : Block) {ω ρ : Type} {sink : Output ω}
    {W : ω → List UInt8 → Prop} (hsink : Aes256CbcEncryptWriter.Takes sink W) {start : ω}
    (hstart : W start []) {source : Reader ρ IoError UInt8} {R : ρ → List UInt8 → Prop}
    (hsource : Provides source R) {data : List UInt8} (hdata : data.length + 15 < 2 ^ 64) :
    (∀ calls size writer, Aes256CbcEncryptWriter.plaintext calls = data →
      (forEach (Aes256CbcEncryptWriter.call aes sink) calls >>= fun _ =>
        Aes256CbcEncryptWriter.finish aes sink) (.new start key iv) = (.ok size, writer) →
      size = data.length ∧ W writer.inner (encryptAes256CbcZeroPad aes data key iv)) ∧
    (∀ inner ciphertextSize, R inner (encryptAes256CbcZeroPad aes data key iv) →
      (ciphertextSize = none ∨ ciphertextSize = some (encryptAes256CbcZeroPad aes data key iv).length) →
      ∃ reader, Aes256CbcDecryptReader.new inner key iv ciphertextSize (some data.length) = .ok reader ∧
        ∀ sizes,
          (∀ o ∈ (runAll (Aes256CbcDecryptReader.read aes source) sizes reader).1, ∃ items, o = .ok items) ∧
          delivered (runAll (Aes256CbcDecryptReader.read aes source) sizes reader).1 <+: data ∧
          (∀ n, 0 < n → (Aes256CbcDecryptReader.read aes source n
              (runAll (Aes256CbcDecryptReader.read aes source) sizes reader).2).1 = .ok [] →
            delivered (runAll (Aes256CbcDecryptReader.read aes source) sizes reader).1 = data) ∧
          ((∀ n ∈ sizes, 0 < n) → data.length ≤ sizes.length →
            delivered (runAll (Aes256CbcDecryptReader.read aes source) sizes reader).1 = data)) ∧
    (∀ inner content ciphertextSize reader, R inner content → ¬Fits content data.length ciphertextSize →
      Aes256CbcDecryptReader.new inner key iv ciphertextSize (some data.length) = .ok reader →
      ∀ sizes, (∀ n ∈ sizes, 0 < n) → data.length < sizes.length →
        ∃ before e after,
          (runAll (Aes256CbcDecryptReader.read aes source) sizes reader).1 = before ++ .error e :: after ∧
          ∀ o ∈ before, ∃ items, o = .ok items ∧ items ≠ []) := by
  refine ⟨fun calls size writer hcalls hrun => ?_, fun inner ciphertextSize hinner hdeclared => ?_,
    fun inner content ciphertextSize reader hinner hunfit hnew sizes hroom hlong => ?_⟩
  · have hwritten := @Aes256CbcEncryptWriter.calls_written aes _ _ _ key iv hsink calls []
    rw [List.nil_append, hcalls] at hwritten
    exact (hwritten.bind fun _ => Aes256CbcEncryptWriter.finish_written hsink data).ok
      (Aes256CbcEncryptWriter.new_written hstart) hrun
  · have hlength := length_encryptAes256CbcZeroPad aes data key iv
    rw [hlength] at hdeclared
    have hfits : Fits (encryptAes256CbcZeroPad aes data key iv) data.length ciphertextSize :=
      .inl ⟨hlength, hdeclared⟩
    obtain ⟨reader, hnew⟩ : ∃ reader, Aes256CbcDecryptReader.new inner key iv ciphertextSize
        (some data.length) = .ok reader := by
      rcases Aes256CbcDecryptReader.new_eq hdata inner key iv ciphertextSize with ⟨e, -, hnone, hsome⟩ | ⟨_, -, hok⟩
      · exact (hdeclared.elim hnone hsome).elim
      · exact ⟨_, hok⟩
    obtain ⟨expected, hexpected, hreading⟩ := @Aes256CbcDecryptReader.new_reading _ aes _ _ _ _ _ _ hdata _ hinner _ hnew
    rw [plain_encrypt] at hreading
    have hprovides : Provides (Aes256CbcDecryptReader.read aes source)
        (Aes256CbcDecryptReader.Reading aes R key iv (encryptAes256CbcZeroPad aes data key iv) data.length
          expected ciphertextSize) := fun n left =>
      (Aes256CbcDecryptReader.read_meets hsource hdata hexpected n left).mono (fun _ h => h)
        (fun _ _ h => h.1) fun _ _ h => h hfits
    refine ⟨reader, hnew, fun sizes => ⟨hprovides.run_ok sizes hreading,
      hprovides.serves.run_prefix sizes hreading, fun n hn hend => ?_, fun hroom hlong => ?_⟩⟩
    · exact hprovides.serves.run_end sizes hreading hn (Prod.ext hend rfl)
    · exact hprovides.serves.run_complete sizes hreading hroom (hprovides.run_ok sizes hreading) hlong
  · obtain ⟨expected, hexpected, hreading⟩ := @Aes256CbcDecryptReader.new_reading _ aes _ _ _ _ _ _ hdata _ hinner _ hnew
    have hlength : (Aes256CbcDecryptReader.plain aes key iv content data.length).length < sizes.length :=
      (List.length_take_le _ _).trans_lt hlong
    refine Reader.run_fails (fun n left hn => ?_) sizes hreading hroom hlength
    refine (Aes256CbcDecryptReader.read_meets hsource hdata hexpected n left).mono (fun _ h => h) ?_
      fun _ _ _ => trivial
    exact fun items reader h => ⟨h.1, fun hnil => hunfit (h.2 hnil hn)⟩

def keepAll : Output (List UInt8) where
  writeAll := fun bytes => modify fun kept => kept ++ bytes
  flush := pure ()

theorem keepAll_takes : Aes256CbcEncryptWriter.Takes keepAll Eq where
  writeAll := fun _ _ _ h => congrArg (· ++ _) h
  flush := fun _ _ h => h

/-- Two writes and four reads, with the identity for a block cipher; and a ciphertext of one byte. -/
theorem aes_streams_pieces :
    (∃ writer, (forEach (Aes256CbcEncryptWriter.call (fun _ => Equiv.refl Block) keepAll)
        [.write [1, 2, 3], .flush, .write [4]] >>= fun _ =>
      Aes256CbcEncryptWriter.finish (fun _ => Equiv.refl Block) keepAll)
      (.new [] (Vector.replicate 32 0) (Vector.replicate 16 0)) = (.ok 4, writer) ∧
      writer.inner = encryptAes256CbcZeroPad (fun _ => Equiv.refl Block) [1, 2, 3, 4]
        (Vector.replicate 32 0) (Vector.replicate 16 0)) ∧
    (∃ reader, Aes256CbcDecryptReader.new (⟨encryptAes256CbcZeroPad (fun _ => Equiv.refl Block) [1, 2, 3, 4]
        (Vector.replicate 32 0) (Vector.replicate 16 0), [.ok 2]⟩ : Scripted IoError UInt8)
        (Vector.replicate 32 0) (Vector.replicate 16 0) none (some 4) = .ok reader ∧
      (∀ o ∈ (runAll (Aes256CbcDecryptReader.read (fun _ => Equiv.refl Block) Scripted.read)
        [3, 5, 1, 2] reader).1, ∃ items, o = .ok items) ∧
      delivered (runAll (Aes256CbcDecryptReader.read (fun _ => Equiv.refl Block) Scripted.read)
        [3, 5, 1, 2] reader).1 = [1, 2, 3, 4]) ∧
    ∃ reader, Aes256CbcDecryptReader.new (⟨[7], []⟩ : Scripted IoError UInt8)
        (Vector.replicate 32 0) (Vector.replicate 16 0) none (some 4) = .ok reader ∧
      ∃ before e after, (runAll (Aes256CbcDecryptReader.read (fun _ => Equiv.refl Block) Scripted.read)
        [1, 1, 1, 1, 1] reader).1 = before ++ .error e :: after ∧
        ∀ o ∈ before, ∃ items, o = .ok items ∧ items ≠ [] := by
  obtain ⟨hwriter, hreader, hmisfit⟩ := @aes_streams (fun _ => Equiv.refl Block) (Vector.replicate 32 0)
    (Vector.replicate 16 0) _ _ keepAll Eq keepAll_takes [] rfl _ _ (@Scripted.provides IoError UInt8)
    [1, 2, 3, 4] (by decide)
  refine ⟨?_, ?_, ?_⟩
  · have hrun : ((forEach (Aes256CbcEncryptWriter.call (fun _ => Equiv.refl Block) keepAll)
          [.write [1, 2, 3], .flush, .write [4]] >>= fun _ =>
        Aes256CbcEncryptWriter.finish (fun _ => Equiv.refl Block) keepAll)
        (.new [] (Vector.replicate 32 0) (Vector.replicate 16 0))).1.isOk := by decide +kernel
    have hstreams := hwriter [.write [1, 2, 3], .flush, .write [4]]
    rcases hok : (forEach (Aes256CbcEncryptWriter.call (fun _ => Equiv.refl Block) keepAll)
          [.write [1, 2, 3], .flush, .write [4]] >>= fun _ =>
        Aes256CbcEncryptWriter.finish (fun _ => Equiv.refl Block) keepAll)
        (.new [] (Vector.replicate 32 0) (Vector.replicate 16 0)) with ⟨_ | size, writer⟩
    · rw [hok] at hrun
      cases hrun
    · obtain ⟨rfl, hinner⟩ := hstreams size writer rfl hok
      exact ⟨writer, rfl, hinner⟩
  · obtain ⟨reader, hnew, hreads⟩ := hreader ⟨_, [.ok 2]⟩ none ⟨rfl, by simp⟩ (.inl rfl)
    obtain ⟨hok, -, -, hall⟩ := hreads [3, 5, 1, 2]
    exact ⟨reader, hnew, hok, hall (by decide) (by decide)⟩
  · have hunfit : ¬Fits [7] 4 none := by
      rintro (⟨hlength, -⟩ | ⟨hempty, -⟩)
      · cases hlength
      · cases hempty
    exact ⟨_, rfl, hmisfit ⟨[7], []⟩ [7] none _ ⟨rfl, by simp⟩ hunfit rfl _ (by decide) (by decide)⟩

/-- The ciphertext of nothing is one block, and none of it is missed when it is not there. -/
theorem empty_ciphertext_accepted :
    (encryptAes256CbcZeroPad (fun _ => Equiv.refl Block) [] (Vector.replicate 32 0)
      (Vector.replicate 16 0)).length = 16 ∧
    ∃ reader, Aes256CbcDecryptReader.new (⟨[], []⟩ : Scripted IoError UInt8) (Vector.replicate 32 0)
        (Vector.replicate 16 0) none (some 0) = .ok reader ∧
      (Aes256CbcDecryptReader.read (fun _ => Equiv.refl Block) Scripted.read 1 reader).1 = .ok [] :=
  ⟨length_encryptAes256CbcZeroPad _ [] _ _, _, rfl, rfl⟩

end R7z
