import R7z.FolderGraph

/-! The coders of a folder with their properties read: what each of them announces, and what it takes to
run it. The memory of the LZMA decoders is what the codec says of itself. -/

namespace R7z

inductive MethodStatus where
  | Tested
  | Partial
  | Unsupported
  | Blocked
  | Untested
deriving DecidableEq, Repr

def MethodStatus.isImplemented : MethodStatus → Bool
  | Tested | Partial => true
  | Unsupported | Blocked | Untested => false

def SevenZMethod.decodeStatus : SevenZMethod → MethodStatus
  | .Bcj2 => .Partial
  | .Zstd | .Brotli | .Lz4 | .Lz5 | .Lizard | .Lzham | .Aes256Cbc => .Unsupported
  | _ => .Tested

def SevenZMethod.encodeStatus : SevenZMethod → MethodStatus
  | .Copy | .Lzma | .Lzma2 | .Ppmd | .Bcj | .FastLzma2 | .SevenZAes => .Tested
  | _ => .Unsupported

def MAX_LZMA_DICTIONARY_BYTES : ℕ := 256 * 1024 * 1024
def MAX_PPMD_MEMORY_BYTES : ℕ := 256 * 1024 * 1024
def OTHER_CODER_WORKING_SET_BYTES : ℕ := 2 * 1024 * 1024
def DECODER_OVERHEAD_BYTES : ℕ := 128 * 1024
def AES_CBC_WORKING_SET_BYTES : ℕ := 1024
def BCJ_READER_WORKING_SET_BYTES : ℕ := 4096
def DELTA_READER_WORKING_SET_BYTES : ℕ := 256

def resourceLimit (resource : String) (limit : ℕ) : R7zError :=
  .resourceLimitExceeded resource (UInt64.ofNat limit)

/-- What the LZMA decoders say they need, in KiB: of a dictionary and a property byte, if these are
valid, and of a dictionary of LZMA2. -/
structure DecoderMemory where
  lzma : UInt32 → UInt8 → Option UInt32
  lzma2 : UInt32 → UInt32

def fromLeBytes (a b c d : UInt8) : UInt32 :=
  UInt32.ofNat (a.toNat + 256 * (b.toNat + 256 * (c.toNat + 256 * d.toNat)))

theorem toLeBytes_four (v : UInt32) : ∃ a b c d : UInt8,
    toLeBytes 4 v.toNat = [a, b, c, d] ∧ fromLeBytes a b c d = v := by
  refine ⟨_, _, _, _, rfl, ?_⟩
  have hlt := v.toNat_lt
  unfold fromLeBytes
  rw [UInt8.toNat_ofNat', UInt8.toNat_ofNat', UInt8.toNat_ofNat', UInt8.toNat_ofNat']
  have hvalue : v.toNat % 256 + 256 * (v.toNat / 256 % 256 + 256 * (v.toNat / 256 / 256 % 256 +
      256 * (v.toNat / 256 / 256 / 256 % 256))) = v.toNat := by
    omega
  exact (congrArg UInt32.ofNat hvalue).trans (UInt32.ofNat_toNat)

def workingSetDecoder (memoryKib : UInt32) : Except R7zError ℕ :=
  if memoryKib.toNat * 1024 + DECODER_OVERHEAD_BYTES < 2 ^ 64 then
    .ok (memoryKib.toNat * 1024 + DECODER_OVERHEAD_BYTES)
  else .error .decompression

structure LzmaProperties where
  props : UInt8
  dictionary : UInt32
  memory : ℕ
  dictionary_le : dictionary.toNat ≤ MAX_LZMA_DICTIONARY_BYTES
deriving DecidableEq, Repr

def LzmaProperties.parse (memory : DecoderMemory) : List UInt8 → Except R7zError LzmaProperties
  | [props, a, b, c, d] =>
    if h : (fromLeBytes a b c d).toNat > MAX_LZMA_DICTIONARY_BYTES then
      .error (resourceLimit "LZMA dictionary" MAX_LZMA_DICTIONARY_BYTES)
    else
      match memory.lzma (fromLeBytes a b c d) props with
      | none => .error .decompression
      | some memoryKib => do
        let memory ← workingSetDecoder memoryKib
        return { props, dictionary := fromLeBytes a b c d, memory, dictionary_le := Nat.not_lt.mp h }
  | _ => .error .decompression

def lzma2DictSize : Option (List UInt8) → Except R7zError UInt32
  | none => .error (resourceLimit "LZMA dictionary" MAX_LZMA_DICTIONARY_BYTES)
  | some [p] =>
    if p > 40 then .error .decompression
    else if p = 40 then .error (resourceLimit "LZMA dictionary" MAX_LZMA_DICTIONARY_BYTES)
    else
      let dictSize := (2 + p.toNat % 2) * 2 ^ (p.toNat / 2 + 11)
      if dictSize > MAX_LZMA_DICTIONARY_BYTES then
        .error (resourceLimit "LZMA dictionary" MAX_LZMA_DICTIONARY_BYTES)
      else .ok (UInt32.ofNat dictSize)
  | some _ => .error .decompression

def branchStartPos (props : Option (List UInt8)) (alignment : ℕ) : Except R7zError ℕ := do
  let pos ← match props.getD [] with
    | [] => .ok 0
    | [a, b, c, d] => .ok (fromLeBytes a b c d).toNat
    | _ => .error .decompression
  if pos % alignment ≠ 0 then .error .decompression else return pos

def ppmdProperties : List UInt8 → Except R7zError (UInt32 × UInt32)
  | [order, a, b, c, d] =>
    if (fromLeBytes a b c d).toNat > MAX_PPMD_MEMORY_BYTES then
      .error (resourceLimit "PPMd memory" MAX_PPMD_MEMORY_BYTES)
    else .ok (order.toUInt32, fromLeBytes a b c d)
  | _ => .error .decompression

def noProperties (coder : CoderInfo) : Except R7zError Unit :=
  match coder.properties with
  | none | some [] => .ok ()
  | some _ => .error .decompression

structure AesProperties where
  numCyclesPower : UInt8
  salt : List UInt8
  iv : List UInt8
  iv_length : iv.length = 16
deriving DecidableEq, Repr

def paddedIv (iv : List UInt8) : List UInt8 := (iv ++ List.replicate 16 0).take 16

theorem paddedIv_length (iv : List UInt8) : (paddedIv iv).length = 16 := by
  unfold paddedIv
  rw [List.length_take, List.length_append, List.length_replicate]
  omega

namespace AesProperties

/-- The sizes of the salt and of the initialization vector, each a bit and a nibble, and what follows. -/
def sizes (byte0 : UInt8) (tail : List UInt8) : Except R7zError (ℕ × ℕ × List UInt8) :=
  let hasSalt := (byte0 >>> 7) &&& 1 != 0
  let hasIv := (byte0 >>> 6) &&& 1 != 0
  if hasSalt || hasIv then
    match tail with
    | [] => .error .decompression
    | byte1 :: rest =>
      .ok (hasSalt.toNat + (byte1 >>> 4).toNat, hasIv.toNat + (byte1 &&& 0x0F).toNat, rest)
  else .ok (0, 0, tail)

def parse (props : List UInt8) : Except R7zError AesProperties :=
  match props with
  | [] => .error .decompression
  | byte0 :: tail => do
    let (saltSize, ivSize, rest) ← sizes byte0 tail
    if rest.length < saltSize + ivSize then .error .decompression
    else
      return { numCyclesPower := byte0 &&& 0x3F, salt := rest.take saltSize,
               iv := paddedIv ((rest.drop saltSize).take ivSize), iv_length := paddedIv_length _ }

end AesProperties

inductive OutputSize where
  | Known (size : UInt64)
  | Unknown
deriving DecidableEq, Repr

namespace OutputSize

def reconcile : OutputSize → OutputSize → Except R7zError OutputSize
  | .Known a, .Known b => if a ≠ b then .error .parse else .ok (.Known a)
  | .Unknown, size => .ok size
  | size, .Unknown => .ok size

def require : OutputSize → Except R7zError UInt64
  | .Known size => .ok size
  | .Unknown => .error (.invalidOptions "coder requires an output size")

end OutputSize

inductive CoderPlan where
  | Copy
  | Lzma (properties : LzmaProperties)
  | Lzma2 (dictionary : UInt32)
  | X86 | Arm | ArmThumb | Ia64 | Ppc | Sparc
  | Arm64 (position : ℕ)
  | Riscv (position : ℕ)
  | Deflate
  | Bzip2
  | Ppmd (order memory : UInt32) (size : UInt64)
  | Deflate64
  | Delta (distance : ℕ)
  | Swap (width : ℕ)
  | Aes (properties : AesProperties)
deriving DecidableEq, Repr

namespace CoderPlan

def bare (coder : CoderInfo) (plan : CoderPlan) : Except R7zError CoderPlan := do
  noProperties coder
  return plan

def compile (memory : DecoderMemory) (coder : CoderInfo) (size : OutputSize) :
    Except R7zError CoderPlan :=
  let properties : Except R7zError (List UInt8) :=
    match coder.properties with
    | some properties => .ok properties
    | none => .error .decompression
  let unsupported : R7zError := .unsupportedCodec coder.codecId.bytes
  match (methodFromId coder.codecId.bytes).filter fun method => method.decodeStatus.isImplemented with
  | none => .error unsupported
  | some method =>
    match method with
    | .Copy => bare coder .Copy
    | .Lzma => do
      let properties ← properties
      let properties ← LzmaProperties.parse memory properties
      return .Lzma properties
    | .Lzma2 => do
      let dictionary ← lzma2DictSize coder.properties
      return .Lzma2 dictionary
    | .Bcj => bare coder .X86
    | .Arm => bare coder .Arm
    | .ArmThumb => bare coder .ArmThumb
    | .Ia64 => bare coder .Ia64
    | .Ppc => bare coder .Ppc
    | .Sparc => bare coder .Sparc
    | .Arm64 => do
      let position ← branchStartPos coder.properties 4
      return .Arm64 position
    | .Riscv => do
      let position ← branchStartPos coder.properties 2
      return .Riscv position
    | .Deflate => bare coder .Deflate
    | .BZip2 => bare coder .Bzip2
    | .Ppmd => do
      let properties ← properties
      let (order, memory) ← ppmdProperties properties
      let size ← size.require
      return .Ppmd order memory size
    | .Deflate64 => bare coder .Deflate64
    | .Delta => do
      let properties ← properties
      match properties with
      | [distance] => return .Delta (distance.toNat + 1)
      | _ => .error .decompression
    | .Swap2 => bare coder (.Swap 2)
    | .Swap4 => bare coder (.Swap 4)
    | .SevenZAes => do
      let properties ← properties
      let properties ← AesProperties.parse properties
      return .Aes properties
    | _ => .error unsupported

def workingSet (memory : DecoderMemory) : CoderPlan → Except R7zError ℕ
  | .Lzma properties => .ok properties.memory
  | .Lzma2 dictionary => workingSetDecoder (memory.lzma2 dictionary)
  | .Ppmd _ memory _ => .ok (memory.toNat + DECODER_OVERHEAD_BYTES)
  | .Aes _ => .ok (AES_CBC_WORKING_SET_BYTES + DECODER_OVERHEAD_BYTES)
  | .Copy | .Swap _ => .ok 0
  | .X86 | .Arm | .ArmThumb | .Ia64 | .Ppc | .Sparc => .ok BCJ_READER_WORKING_SET_BYTES
  | .Delta _ => .ok DELTA_READER_WORKING_SET_BYTES
  | .Arm64 _ | .Riscv _ => .ok BCJ_READER_WORKING_SET_BYTES
  | .Deflate | .Bzip2 | .Deflate64 => .ok OTHER_CODER_WORKING_SET_BYTES

def preservesSize : CoderPlan → Bool
  | .Copy | .X86 | .Arm | .ArmThumb | .Ia64 | .Ppc | .Sparc | .Arm64 _ | .Riscv _ | .Delta _ | .Swap _ => true
  | .Lzma _ | .Lzma2 _ | .Deflate | .Bzip2 | .Ppmd .. | .Deflate64 | .Aes _ => false

def announced : CoderPlan → Option ℕ
  | .Lzma properties => some properties.dictionary.toNat
  | .Lzma2 dictionary => some dictionary.toNat
  | .Ppmd _ memory _ => some memory.toNat
  | _ => none

end CoderPlan

end R7z
