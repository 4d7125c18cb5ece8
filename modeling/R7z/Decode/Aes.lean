import R7z.Effect.Reader
import R7z.Decode.Budget
import R7z.Wire.Cbc

/-! AES-256 in cipher block chaining, at once and as streams. The block cipher is a permutation of the
blocks for each key; what it permutes them to is not looked into. -/

namespace R7z

open Effect Effect.Machine Effect.Reader Groups Cbc

abbrev Block := Vector UInt8 16

abbrev AesKey := Vector UInt8 32

/-- The block cipher. -/
abbrev Aes256 := AesKey → Equiv.Perm Block

variable (aes : Aes256)

def aes256CbcEnc (key : AesKey) : (iv : Block) → List Block → List Block :=
  encryptBlocks xorBlock (aes key)

def aes256CbcDec (key : AesKey) : (iv : Block) → List Block → List Block :=
  decryptBlocks xorBlock (aes key).symm

def nextMultipleOf (n m : ℕ) : ℕ := (n + (m - 1)) / m * m

def encryptAes256CbcZeroPad (data : List UInt8) (key : AesKey) (iv : Block) : List UInt8 :=
  let paddedLen := max (nextMultipleOf data.length 16) 16
  let buf := data ++ List.replicate (paddedLen - data.length) 0
  bytes (aes256CbcEnc aes key iv (blocks 16 buf))

def encryptedSizeForPlaintext (size : ℕ) : Except R7zError ℕ :=
  if size = 0 then .ok 16
  else if size + 15 < 2 ^ 64 then .ok ((size + 15) / 16 * 16)
  else .error .decompression

/-! The writer -/

def CIPHERTEXT_BUFFER_SIZE : ℕ := 8192

structure Output (ω : Type) where
  writeAll : List UInt8 → Machine ω IoError Unit
  flush : Machine ω IoError Unit

/-- `pending` is the part of a block that was written last, `ciphertext` the encrypted blocks that are not
yet passed on, `chain` the state of the cipher. -/
structure Aes256CbcEncryptWriter (ω : Type) where
  inner : ω
  key : AesKey
  chain : Block
  pending : List UInt8
  ciphertext : List UInt8
  plaintextSize : ℕ
  encryptedBlock : Bool

namespace Aes256CbcEncryptWriter

variable {ω : Type}

def new (inner : ω) (key : AesKey) (iv : Block) : Aes256CbcEncryptWriter ω where
  inner := inner
  key := key
  chain := iv
  pending := []
  ciphertext := []
  plaintextSize := 0
  encryptedBlock := false

variable (sink : Output ω)

def onInner (m : Machine ω IoError Unit) : Machine (Aes256CbcEncryptWriter ω) IoError Unit :=
  focus Aes256CbcEncryptWriter.inner (fun inner writer => { writer with inner := inner }) m

def flushCiphertext : Machine (Aes256CbcEncryptWriter ω) IoError Unit := do
  let writer ← get
  if writer.ciphertext.length = 0 then pure ()
  else do
    onInner (sink.writeAll writer.ciphertext)
    modify fun writer => { writer with ciphertext := [] }

def encryptPending : Machine (Aes256CbcEncryptWriter ω) IoError Unit := do
  modify fun writer =>
    let encrypted := aes writer.key (xorBlock (block 16 writer.pending) writer.chain)
    { writer with chain := encrypted, ciphertext := writer.ciphertext ++ encrypted.toList, pending := [],
                  encryptedBlock := true }
  let writer ← get
  if writer.ciphertext.length = CIPHERTEXT_BUFFER_SIZE then flushCiphertext sink else pure ()

def encryptFull : Machine (Aes256CbcEncryptWriter ω) IoError Unit := do
  let writer ← get
  if writer.pending.length = 16 then encryptPending aes sink else pure ()

def absorb : (turns : ℕ) → (input : List UInt8) → Machine (Aes256CbcEncryptWriter ω) IoError Unit
  | 0, _ => pure ()
  | turns + 1, input =>
    if input = [] then pure ()
    else do
      let writer ← get
      let copied := min (16 - writer.pending.length) input.length
      modify fun writer => { writer with pending := writer.pending ++ input.take copied }
      encryptFull aes sink
      absorb turns (input.drop copied)

def write (input : List UInt8) : Machine (Aes256CbcEncryptWriter ω) IoError ℕ := do
  let writer ← get
  let plaintextSize := writer.plaintextSize + input.length
  if 2 ^ 64 ≤ plaintextSize then fail .invalidData
  else do
    absorb aes sink input.length input
    modify fun writer => { writer with plaintextSize := plaintextSize }
    pure input.length

def flush : Machine (Aes256CbcEncryptWriter ω) IoError Unit := do
  flushCiphertext sink
  onInner sink.flush

def encryptLast : Machine (Aes256CbcEncryptWriter ω) IoError Unit := do
  let writer ← get
  if writer.pending.length ≠ 0 ∨ writer.encryptedBlock = false then encryptPending aes sink else pure ()

def finish : Machine (Aes256CbcEncryptWriter ω) IoError ℕ := do
  encryptLast aes sink
  flushCiphertext sink
  onInner sink.flush
  let writer ← get
  pure writer.plaintextSize

inductive Call where
  | write (bytes : List UInt8)
  | flush

def call : Call → Machine (Aes256CbcEncryptWriter ω) IoError Unit
  | .write bytes => do
    let _ ← write aes sink bytes
    pure ()
  | .flush => flush sink

def plaintext (calls : List Call) : List UInt8 :=
  calls.flatMap fun call => match call with
    | .write bytes => bytes
    | .flush => []

/-- What a sink that `R` describes does when it succeeds: it takes all it is given. -/
structure Takes (R : ω → List UInt8 → Prop) : Prop where
  writeAll : ∀ bytes out,
    Meets (fun s => R s out) (sink.writeAll bytes) (fun _ s => R s (out ++ bytes)) fun _ _ => True
  flush : ∀ out, Meets (fun s => R s out) sink.flush (fun _ s => R s out) fun _ _ => True

/-- The blocks `ps` have been encrypted, and the bytes `rest` behind them wait for the rest of theirs. -/
structure Encrypts (R : ω → List UInt8 → Prop) (key : AesKey) (iv : Block) (size : ℕ) (ps : List Block)
    (rest : List UInt8) (writer : Aes256CbcEncryptWriter ω) : Prop where
  key_eq : writer.key = key
  pending_eq : writer.pending = rest
  chain : writer.chain = lastBlock iv (aes256CbcEnc aes key iv ps)
  begun : writer.encryptedBlock = true ↔ ps ≠ []
  size_eq : writer.plaintextSize = size
  room : 16 ∣ writer.ciphertext.length ∧ writer.ciphertext.length < CIPHERTEXT_BUFFER_SIZE
  emitted : ∃ out, R writer.inner out ∧
    out ++ writer.ciphertext = bytes (aes256CbcEnc aes key iv ps)

variable {aes} {sink} {R : ω → List UInt8 → Prop} {key : AesKey} {iv : Block} {size : ℕ}
  {ps : List Block} {rest : List UInt8}

theorem onInner_meets {m : Machine ω IoError Unit} {out out' : List UInt8}
    (h : Meets (fun s => R s out) m (fun _ s => R s out') fun _ _ => True)
    (writer : Aes256CbcEncryptWriter ω) (hout : R writer.inner out) :
    Outcome (fun _ writer' => ∃ inner, writer' = { writer with inner := inner } ∧ R inner out')
      (fun _ _ => True) (onInner m writer) := by
  have hm := h writer.inner hout
  unfold onInner focus
  rcases hrun : m writer.inner with ⟨e | _, inner⟩
  · trivial
  · rw [hrun] at hm
    exact ⟨inner, rfl, hm⟩

theorem flushCiphertext_meets (h : Takes sink R) (writer : Aes256CbcEncryptWriter ω) {out : List UInt8}
    (hout : R writer.inner out) :
    Outcome (fun _ writer' => ∃ inner, writer' = { writer with inner := inner, ciphertext := [] } ∧
        R inner (out ++ writer.ciphertext))
      (fun _ _ => True) (flushCiphertext sink writer) := by
  refine Outcome.ite (fun hempty => ?_) fun _ => ?_
  · have hnil := List.length_eq_zero_iff.mp hempty
    refine ⟨writer.inner, ?_, ?_⟩
    · rw [← hnil]
    · rwa [hnil, List.append_nil]
  · have hwrite := onInner_meets (h.writeAll writer.ciphertext out) writer hout
    rcases hrun : onInner (sink.writeAll writer.ciphertext) writer with ⟨e | _, writer'⟩
    · rw [bind_of_error hrun]
      trivial
    · rw [hrun] at hwrite
      rw [bind_of_ok hrun]
      obtain ⟨inner, rfl, hinner⟩ := hwrite
      exact ⟨inner, rfl, hinner⟩

theorem room_empty : 16 ∣ ([] : List UInt8).length ∧ ([] : List UInt8).length < CIPHERTEXT_BUFFER_SIZE := by
  decide

theorem flushCiphertext_encrypts (h : Takes sink R) :
    Meets (Encrypts aes R key iv size ps rest) (flushCiphertext sink)
      (fun _ writer => Encrypts aes R key iv size ps rest writer ∧ writer.ciphertext = [])
      fun _ _ => True := by
  intro writer he
  obtain ⟨out, hout, hbytes⟩ := he.emitted
  refine (flushCiphertext_meets h writer hout).mono ?_ fun _ _ _ => trivial
  rintro _ _ ⟨inner, rfl, hinner⟩
  exact ⟨⟨he.key_eq, he.pending_eq, he.chain, he.begun, he.size_eq, room_empty, _, hinner,
    by rw [List.append_nil, hbytes]⟩, rfl⟩

theorem encryptPending_encrypts (h : Takes sink R) :
    Meets (Encrypts aes R key iv size ps rest) (encryptPending aes sink)
      (fun _ => Encrypts aes R key iv size (ps ++ [block 16 rest]) []) fun _ _ => True := by
  intro writer he
  obtain ⟨out, hout, hbytes⟩ := he.emitted
  let c := aes writer.key (xorBlock (block 16 writer.pending) writer.chain)
  have henc : aes256CbcEnc aes key iv (ps ++ [block 16 rest]) = aes256CbcEnc aes key iv ps ++ [c] := by
    rw [aes256CbcEnc, encryptBlocks_append]
    change _ ++ [aes key (xorBlock (block 16 rest) _)] = _ ++ [aes writer.key (xorBlock _ _)]
    rw [he.key_eq, he.pending_eq, he.chain]
    rfl
  have hchain : c = lastBlock iv (aes256CbcEnc aes key iv (ps ++ [block 16 rest])) := by
    rw [henc, lastBlock_append]
    rfl
  have hemitted : out ++ (writer.ciphertext ++ c.toList) =
      bytes (aes256CbcEnc aes key iv (ps ++ [block 16 rest])) := by
    rw [henc, bytes_append, ← hbytes, List.append_assoc, bytes_singleton]
  have hlength : (writer.ciphertext ++ c.toList).length = writer.ciphertext.length + 16 := by
    rw [List.length_append, Vector.length_toList]
  have hbegun : true = true ↔ ps ++ [block 16 rest] ≠ [] :=
    iff_of_true rfl (List.append_ne_nil_of_right_ne_nil _ (List.cons_ne_nil _ _))
  obtain ⟨hdvd, hroom⟩ := he.room
  refine Outcome.ite (fun hfull => ?_) fun hfull => ?_
  · refine (flushCiphertext_meets h { writer with
      chain := c, ciphertext := writer.ciphertext ++ c.toList, pending := [], encryptedBlock := true }
      hout).mono ?_ fun _ _ _ => trivial
    rintro _ _ ⟨inner, rfl, hinner⟩
    exact ⟨he.key_eq, rfl, hchain, hbegun, he.size_eq, room_empty, _, hinner,
      (List.append_nil _).trans hemitted⟩
  · refine ⟨he.key_eq, rfl, hchain, hbegun, he.size_eq, ?_, out, hout, hemitted⟩
    change ¬(writer.ciphertext ++ c.toList).length = _ at hfull
    change 16 ∣ (writer.ciphertext ++ c.toList).length ∧ (writer.ciphertext ++ c.toList).length < _
    rw [CIPHERTEXT_BUFFER_SIZE] at hroom hfull ⊢
    omega

theorem absorb_encrypts (h : Takes sink R) : ∀ (turns : ℕ) (input all : List UInt8), input.length ≤ turns →
    Meets (Encrypts aes R key iv size (blocks 16 all) (tail 16 all)) (absorb aes sink turns input)
      (fun _ => Encrypts aes R key iv size (blocks 16 (all ++ input)) (tail 16 (all ++ input)))
      fun _ _ => True
  | 0, input, all, hturns => by
    intro writer he
    rw [List.length_eq_zero_iff.mp (Nat.le_zero.mp hturns), List.append_nil]
    exact he
  | turns + 1, input, all, hturns => by
    refine fun writer he => Outcome.ite (fun hnil => ?_) fun hsome => ?_
    · rw [hnil, List.append_nil]
      exact he
    · let copied := min (16 - writer.pending.length) input.length
      -- the turn takes what completes the block, or all there is
      have hpending : writer.pending.length < 16 := by
        rw [he.pending_eq]
        exact tail_length (by decide) all
      have hpos := List.length_pos_iff.mpr hsome
      have hrest : (input.drop copied).length ≤ turns := by
        rw [List.length_drop]
        omega
      have hall : all ++ input = (all ++ input.take copied) ++ input.drop copied := by
        rw [List.append_assoc, List.take_append_drop]
      let filled := writer.pending ++ input.take copied
      have hfilled : Encrypts aes R key iv size (blocks 16 all) filled { writer with pending := filled } :=
        ⟨he.key_eq, rfl, he.chain, he.begun, he.size_eq, he.room, he.emitted⟩
      have hlength : filled.length ≤ 16 := by
        rw [List.length_append, List.length_take]
        omega
      have htail : tail 16 all ++ input.take copied = filled := by rw [← he.pending_eq]
      have hblocks := blocks_append (w := 16) (by decide) all (input.take copied)
      have htails := tail_append (w := 16) (by decide) all (input.take copied)
      rw [htail] at hblocks htails
      rw [hall]
      -- either the block is complete and encrypted, or all of the input fits in front of its end
      have hnext : Outcome
          (fun _ => Encrypts aes R key iv size (blocks 16 (all ++ input.take copied))
            (tail 16 (all ++ input.take copied))) (fun _ _ => True)
          (encryptFull aes sink { writer with pending := filled }) := by
        refine Outcome.ite (fun hfull => ?_) fun hmore => ?_
        · have hstep := encryptPending_encrypts h _ hfilled
          rwa [hblocks, htails, blocks_single (by decide) hfull, tail_eq_nil (by rw [hfull])]
        · have hshort : filled.length < 16 := lt_of_le_of_ne hlength hmore
          rw [hblocks, htails, blocks_short hshort, tail_short hshort, List.append_nil]
          exact hfilled
      have hmeets := Meets.bind (P := fun w => w = { writer with pending := filled })
        (fun w hw => hw ▸ hnext)
        fun _ => absorb_encrypts h turns (input.drop copied) (all ++ input.take copied) hrest
      exact hmeets _ rfl

def Written (aes : Aes256) (R : ω → List UInt8 → Prop) (key : AesKey) (iv : Block) (all : List UInt8)
    (writer : Aes256CbcEncryptWriter ω) : Prop :=
  Encrypts aes R key iv all.length (blocks 16 all) (tail 16 all) writer

theorem write_written (h : Takes sink R) (input all : List UInt8) :
    Meets (Written aes R key iv all) (write aes sink input)
      (fun n writer => n = input.length ∧ Written aes R key iv (all ++ input) writer) fun _ _ => True := by
  refine fun writer hw => Outcome.ite (fun _ => trivial) fun _ => ?_
  have habsorb := absorb_encrypts h input.length input all le_rfl writer hw
  rcases hrun : absorb aes sink input.length input writer with ⟨e | _, writer'⟩
  · rw [bind_of_error hrun]
    trivial
  · rw [hrun] at habsorb
    rw [bind_of_ok hrun]
    have hsize : writer.plaintextSize + input.length = (all ++ input).length := by
      rw [hw.size_eq, List.length_append]
    exact ⟨rfl, habsorb.key_eq, habsorb.pending_eq, habsorb.chain, habsorb.begun, hsize, habsorb.room,
      habsorb.emitted⟩

theorem flush_written (h : Takes sink R) (all : List UInt8) :
    Meets (Written aes R key iv all) (flush sink) (fun _ => Written aes R key iv all) fun _ _ => True := by
  refine (flushCiphertext_encrypts h).bind fun _ writer he => ?_
  obtain ⟨he, hempty⟩ := he
  obtain ⟨out, hout, hbytes⟩ := he.emitted
  refine (onInner_meets (h.flush out) writer hout).mono ?_ fun _ _ _ => trivial
  rintro _ _ ⟨inner, rfl, hinner⟩
  exact ⟨he.key_eq, he.pending_eq, he.chain, he.begun, he.size_eq, he.room, out, hinner, hbytes⟩

/-- The padding fills up the last block, and makes one for no bytes at all. -/
theorem padded_blocks (data : List UInt8) :
    blocks 16 (data ++ List.replicate (max (nextMultipleOf data.length 16) 16 - data.length) 0) =
      if (tail 16 data).length ≠ 0 ∨ blocks 16 data = [] then blocks 16 data ++ [block 16 (tail 16 data)]
      else blocks 16 data := by
  have hcount := length_blocks (w := 16) (by decide) data
  have htail : (tail 16 data).length = data.length - data.length / 16 * 16 := List.length_drop
  split
  · rename_i hpad
    have hzeros : (tail 16 data ++
        List.replicate (max (nextMultipleOf data.length 16) 16 - data.length) (0 : UInt8)).length = 16 := by
      rw [List.length_append, List.length_replicate, nextMultipleOf]
      rcases hpad with hpad | hpad
      · omega
      · rw [hpad, List.length_nil] at hcount
        omega
    rw [blocks_append (by decide), blocks_single (by decide) hzeros]
    congr 2
    apply Vector.toList_inj.mp
    rw [toList_block hzeros, toList_block_pad (tail_length (by decide) data).le]
    congr 2
    rw [List.length_append, List.length_replicate] at hzeros
    omega
  · rename_i hfull
    have hsome : (blocks 16 data).length ≠ 0 := fun h => hfull (.inr (List.length_eq_zero_iff.mp h))
    have hnone : max (nextMultipleOf data.length 16) 16 - data.length = 0 := by
      have hzero : (tail 16 data).length = 0 := by_contra fun h => hfull (.inl h)
      rw [nextMultipleOf]
      omega
    rw [hnone, List.replicate_zero, List.append_nil]

theorem encryptLast_encrypts (h : Takes sink R) (all : List UInt8) :
    Meets (Written aes R key iv all) (encryptLast aes sink)
      (fun _ => Encrypts aes R key iv all.length
        (blocks 16 (all ++ List.replicate (max (nextMultipleOf all.length 16) 16 - all.length) 0)) [])
      fun _ _ => True := by
  refine fun writer hw => Outcome.ite (fun hlast => ?_) fun hnone => ?_
  · rw [hw.pending_eq, ← Bool.not_eq_true, hw.begun, not_not] at hlast
    rw [padded_blocks, if_pos hlast]
    exact encryptPending_encrypts h writer hw
  · rw [hw.pending_eq, ← Bool.not_eq_true, hw.begun, not_not] at hnone
    rw [padded_blocks, if_neg hnone]
    have hempty : tail 16 all = [] := List.length_eq_zero_iff.mp (by_contra fun h => hnone (.inl h))
    have hw' := hw
    rwa [Written, hempty] at hw'

theorem finish_written (h : Takes sink R) (all : List UInt8) :
    Meets (Written aes R key iv all) (finish aes sink)
      (fun size writer => size = all.length ∧ R writer.inner (encryptAes256CbcZeroPad aes all key iv))
      fun _ _ => True := by
  refine (encryptLast_encrypts h all).bind fun _ => (flushCiphertext_encrypts h).bind fun _ writer he => ?_
  obtain ⟨he, hempty⟩ := he
  obtain ⟨out, hout, hbytes⟩ := he.emitted
  rw [hempty, List.append_nil] at hbytes
  have hflush := onInner_meets (h.flush out) writer hout
  rcases hrun : onInner sink.flush writer with ⟨e | _, writer'⟩
  · rw [bind_of_error hrun]
    trivial
  · rw [hrun] at hflush
    rw [bind_of_ok hrun]
    obtain ⟨inner, rfl, hinner⟩ := hflush
    subst hbytes
    exact ⟨he.size_eq, hinner⟩

theorem new_written {inner : ω} (hinner : R inner []) : Written aes R key iv [] (new inner key iv) := by
  refine ⟨rfl, rfl, ?_, ?_, rfl, room_empty, [], hinner, ?_⟩
  · rw [blocks_short (by decide)]
    rfl
  · rw [blocks_short (by decide)]
    exact iff_of_false (Bool.false_ne_true) fun h => h rfl
  · rw [blocks_short (by decide)]
    rfl

theorem calls_written (h : Takes sink R) (calls : List Call) (all : List UInt8) :
    Meets (Written aes R key iv all) (forEach (call aes sink) calls)
      (fun _ => Written aes R key iv (all ++ plaintext calls)) fun _ _ => True := by
  induction calls generalizing all with
  | nil =>
    rw [plaintext, List.flatMap_nil, List.append_nil]
    exact fun writer hw => hw
  | cons c calls ih =>
    cases c with
    | write bytes =>
      have hrest := ih (all ++ bytes)
      rw [List.append_assoc] at hrest
      have hcall : Meets (Written aes R key iv all) (call aes sink (.write bytes))
          (fun _ => Written aes R key iv (all ++ bytes)) fun _ _ => True :=
        (write_written h bytes all).bind fun _ => Meets.pure fun writer hw => hw.2
      exact hcall.bind fun _ => hrest
    | flush => exact (flush_written h all).bind fun _ => ih all

end Aes256CbcEncryptWriter

end R7z
