import R7z.Decode.Plan
import R7z.Write.Builder

/-! The options that a caller gives for an archive, and what the writer takes from them once they are
checked. The presets of the codecs and the bounds of PPMd are those of the codecs themselves. -/

namespace R7z

open Wire

namespace Options

inductive Codec where
  | Copy
  | Lzma
  | Lzma2
  | Ppmd
  | Lzma2Bcj
deriving DecidableEq, Repr

inductive CompressionLevel where
  | Store
  | Fastest
  | Fast
  | Normal
  | Maximum
  | Ultra
deriving DecidableEq, Repr

inductive MatchFinder where
  | Hc4 | Bt4
deriving DecidableEq, Repr

inductive LzmaAlgorithm where
  | Fast | Normal
deriving DecidableEq, Repr

inductive EncoderThreads where
  | Auto
  | Single
  | Fixed (count : UInt32)
deriving DecidableEq, Repr

structure CompressionOptions where
  level : CompressionLevel
  dictionarySize : Option UInt32
  fastBytes : Option UInt32
  literalContextBits : Option UInt32
  literalPositionBits : Option UInt32
  positionBits : Option UInt32
  matchFinder : Option MatchFinder
  lzmaAlgorithm : Option LzmaAlgorithm
  matchCycles : Option UInt32
  solid : Write.SolidMode
  lzma2ChunkSize : Option Write.NonZeroU64
  threads : EncoderThreads
deriving DecidableEq

namespace CompressionOptions

def default : CompressionOptions :=
  { level := .Normal, dictionarySize := none, fastBytes := none, literalContextBits := none,
    literalPositionBits := none, positionBits := none, matchFinder := none, lzmaAlgorithm := none,
    matchCycles := none, solid := .Solid, lzma2ChunkSize := none, threads := .Auto }

def lzmaTuned (compression : CompressionOptions) : Bool :=
  compression.literalContextBits.isSome || compression.literalPositionBits.isSome ||
    compression.positionBits.isSome || compression.matchFinder.isSome ||
    compression.lzmaAlgorithm.isSome || compression.matchCycles.isSome

def tuned (compression : CompressionOptions) : Bool :=
  compression.dictionarySize.isSome || compression.fastBytes.isSome || compression.lzmaTuned ||
    compression.lzma2ChunkSize.isSome

end CompressionOptions

structure EncryptionOptions where
  password : String
  encryptHeader : Bool
  numCyclesPower : UInt8
  saltLen : UInt8
  ivLen : UInt8
deriving DecidableEq

structure StreamingOptions where
  bufferSize : ℕ
deriving DecidableEq

structure ArchiveOptions where
  codec : Codec
  headerMode : Write.HeaderMode
  encryption : Option EncryptionOptions
  compression : CompressionOptions
  streaming : StreamingOptions
deriving DecidableEq

def ArchiveOptions.default : ArchiveOptions :=
  { codec := .Lzma2, headerMode := .P7zipDefault, encryption := none,
    compression := CompressionOptions.default, streaming := { bufferSize := 64 * 1024 } }

inductive EncodeMode where
  | Fast | Normal
deriving DecidableEq, Repr

structure LzmaOptions where
  dictSize : UInt32
  lc : UInt32
  lp : UInt32
  pb : UInt32
  mode : EncodeMode
  niceLen : UInt32
  mf : MatchFinder
  depthLimit : ℕ
deriving DecidableEq, Repr

/-- What the codecs fix by themselves: the parameters of a preset, the property byte that an encoder
writes for its parameters, and the orders and memory sizes of PPMd. -/
structure Codecs where
  withPreset : UInt32 → LzmaOptions
  props : LzmaOptions → UInt8
  ppmd7MinOrder : UInt32
  ppmd7MaxOrder : UInt32
  ppmd7MinMemSize : UInt32
  ppmd7MaxMemSize : UInt32

def MAX_LZMA2_CHUNK_SIZE : ℕ := 1024 * 1024 * 1024
def MAX_AES_NUM_CYCLES_POWER : UInt8 := 24
def MAX_WORKERS : UInt32 := 256

def CompressionLevel.preset : CompressionLevel → UInt32
  | Store => 0
  | Fastest => 1
  | Fast => 3
  | Normal => 5
  | Maximum => 7
  | Ultra => 9

def mib (n : ℕ) : UInt32 := UInt32.ofNat (n <<< 20)

def levelOptions (level : CompressionLevel) (options : LzmaOptions) : LzmaOptions :=
  match level with
  | .Fastest => { options with dictSize := UInt32.ofNat (256 <<< 10), niceLen := 32, depthLimit := 16 }
  | .Fast => { options with dictSize := mib 4, niceLen := 32, depthLimit := 16 }
  | .Normal => { options with dictSize := mib 16, niceLen := 32, depthLimit := 32 }
  | .Maximum => { options with dictSize := mib 32, niceLen := 64, depthLimit := 48 }
  | .Ultra => { options with dictSize := mib 64, niceLen := 64, depthLimit := 48 }
  | .Store => options

def ppmdMemorySizePreset : CompressionLevel → UInt32
  | .Store | .Fastest => mib 1
  | .Fast => mib 4
  | .Normal => mib 16
  | .Maximum => mib 32
  | .Ultra => mib 64

def invalid {α : Type} (message : String) : Except R7zError α := .error (.invalidOptions message)

def reject (condition : Bool) (message : String) : Except R7zError Unit :=
  if condition then invalid message else .ok ()

theorem reject_eq_ok {condition : Bool} {message : String} {u : Unit} :
    reject condition message = .ok u ↔ condition = false := by
  cases condition <;> simp [reject, invalid]

section
variable (codecs : Codecs)

def lzmaOptions (compression : CompressionOptions) : LzmaOptions :=
  let options := levelOptions compression.level (codecs.withPreset compression.level.preset)
  { dictSize := compression.dictionarySize.getD options.dictSize
    lc := compression.literalContextBits.getD options.lc
    lp := compression.literalPositionBits.getD options.lp
    pb := compression.positionBits.getD options.pb
    mode := match compression.lzmaAlgorithm with
      | some .Fast => .Fast
      | some .Normal => .Normal
      | none => options.mode
    niceLen := compression.fastBytes.getD options.niceLen
    mf := compression.matchFinder.getD options.mf
    depthLimit := (compression.matchCycles.map UInt32.toNat).getD options.depthLimit }

def ppmdOrder (compression : CompressionOptions) : Except R7zError UInt8 :=
  let order := compression.fastBytes.getD 6
  if ¬(codecs.ppmd7MinOrder ≤ order ∧ order ≤ codecs.ppmd7MaxOrder) then
    invalid "PPMd order must be in 2..=64"
  else if order.toNat < 256 then .ok order.toUInt8
  else invalid "PPMd order is too large"

def ppmdSettings (compression : CompressionOptions) (order : UInt8) :
    Except R7zError Write.PreparedCodec :=
  let memSize := compression.dictionarySize.getD (ppmdMemorySizePreset compression.level)
  if ¬(codecs.ppmd7MinMemSize ≤ memSize ∧ memSize ≤ codecs.ppmd7MaxMemSize) then
    invalid "PPMd memory size is outside supported range"
  else .ok (.Ppmd order memSize)

def validateLzmaPropertyBits (compression : CompressionOptions) : Except R7zError Unit := do
  let lc := compression.literalContextBits.getD 3
  let lp := compression.literalPositionBits.getD 0
  let pb := compression.positionBits.getD 2
  reject (lc > 8) "literal_context_bits must be in 0..=8"
  reject (lp > 4) "literal_position_bits must be in 0..=4"
  reject (pb > 4) "position_bits must be in 0..=4"
  reject (lc + lp > 4) "literal_context_bits + literal_position_bits must be <= 4"

def validateMatchCycles (compression : CompressionOptions) : Except R7zError Unit :=
  reject (compression.matchCycles.any fun cycles => cycles.toNat ≥ 2 ^ 31) "match_cycles is too large"

def validateLzma2ChunkSize (options : ArchiveOptions) : Except R7zError Unit := do
  let dict := (lzmaOptions codecs options.compression).dictSize
  reject (options.codec ∈ [.Lzma2, .Lzma2Bcj] ∧ dict.toNat > MAX_LZMA2_CHUNK_SIZE)
    "dictionary_size must be <= 1g for LZMA2"
  let chunkSize := options.compression.lzma2ChunkSize
  reject (chunkSize.any fun size => size.val.toNat > MAX_LZMA2_CHUNK_SIZE)
    "lzma2_chunk_size must be <= 1g"
  reject (chunkSize.any fun size => size.val.toNat < dict.toNat)
    "lzma2_chunk_size must be at least dictionary_size"

def Codec.methods : Codec → List SevenZMethod
  | Copy => [.Copy]
  | Lzma => [.Lzma]
  | Lzma2 => [.Lzma2]
  | Ppmd => [.Ppmd]
  | Lzma2Bcj => [.Lzma2, .Bcj]

/-- The order of PPMd; the other codecs have none, and their fast bytes are bounded. -/
def validateFastBytes (options : ArchiveOptions) : Except R7zError (Option UInt8) :=
  if options.codec = .Ppmd then (ppmdOrder codecs options.compression).map some
  else do
    reject (options.compression.fastBytes.any fun fastBytes => ¬(8 ≤ fastBytes ∧ fastBytes ≤ 273))
      "fast_bytes must be in 8..=273"
    return none

def codecSettings (options : ArchiveOptions) (order : Option UInt8) :
    Except R7zError Write.PreparedCodec :=
  match options.codec, order with
  | .Copy, _ => .ok .Copy
  | .Lzma, _ => .ok .Lzma
  | .Lzma2, _ => .ok .Lzma2
  | .Ppmd, some order => ppmdSettings codecs options.compression order
  | .Ppmd, none => .error .parse
  | .Lzma2Bcj, _ => .ok .Lzma2Bcj

def validateCompressionOptions (options : ArchiveOptions) : Except R7zError Write.PreparedCodec := do
  let compression := options.compression
  let minDict := if options.codec = .Ppmd then codecs.ppmd7MinMemSize else 4096
  reject (options.codec.methods.any fun method => ¬method.encodeStatus.isImplemented)
    "selected codec is not supported for writing"
  reject (options.streaming.bufferSize = 0) "streaming buffer_size must be greater than zero"
  reject (options.codec = .Copy ∧ compression.tuned) "Copy codec does not support compression tuning"
  reject (compression.dictionarySize.any fun dict => dict < minDict)
    "dictionary_size is too small for selected codec"
  let order ← validateFastBytes codecs options
  reject (options.codec = .Ppmd ∧ compression.lzma2ChunkSize.isSome)
    "PPMd does not support lzma2_chunk_size"
  reject (options.codec = .Ppmd ∧ compression.lzmaTuned) "PPMd does not support LZMA-specific tuning"
  validateLzmaPropertyBits compression
  validateMatchCycles compression
  validateLzma2ChunkSize codecs options
  reject (compression.solid = .Limit none none) "solid limit requires max_files or max_bytes"
  codecSettings codecs options order

def validateThreads (options : ArchiveOptions) : Except R7zError Unit := do
  let threads := options.compression.threads
  reject (threads = .Fixed 0) "encoder thread count must be positive"
  match threads with
  | .Fixed count =>
    reject (options.codec ∉ [.Lzma2, .Lzma2Bcj]) "multiple encoder threads require LZMA2"
    reject (count > MAX_WORKERS) "encoder thread count must be <= 256"
  | _ => .ok ()

structure AesSettings where
  cyclesPower : UInt8
  saltLen : UInt8
  ivLen : UInt8
  cycles_le : cyclesPower ≤ MAX_AES_NUM_CYCLES_POWER
  salt_le : saltLen ≤ 16
  iv_le : ivLen ≤ 16

def validateEncryption (headerMode : Write.HeaderMode) (enc : EncryptionOptions) :
    Except R7zError AesSettings :=
  if hcycles : enc.numCyclesPower > MAX_AES_NUM_CYCLES_POWER then
    invalid "AES num_cycles_power must be <= 24"
  else if hsalt : enc.saltLen > 16 then invalid "AES salt_len must be <= 16"
  else if hiv : enc.ivLen > 16 then invalid "AES iv_len must be <= 16"
  else if enc.encryptHeader ∧ headerMode = .Plain then
    invalid "encrypt_header requires encoded headers"
  else
    .ok { cyclesPower := enc.numCyclesPower, saltLen := enc.saltLen, ivLen := enc.ivLen,
          cycles_le := UInt8.not_lt.mp hcycles, salt_le := UInt8.not_lt.mp hsalt,
          iv_le := UInt8.not_lt.mp hiv }

structure PreparedSettings where
  aes : AesSettings
  codec : Write.PreparedCodec

def validateArchiveOptions (options : ArchiveOptions) : Except R7zError PreparedSettings := do
  let codec ← validateCompressionOptions codecs options
  validateThreads options
  let aes ← match options.encryption with
    | some enc => validateEncryption options.headerMode enc
    | none => .ok { cyclesPower := 0, saltLen := 0, ivLen := 0, cycles_le := by decide,
                    salt_le := by decide, iv_le := by decide }
  return { aes, codec }

theorem validateArchiveOptions_bufferSize {codecs : Codecs} {options : ArchiveOptions}
    {settings : PreparedSettings} (h : validateArchiveOptions codecs options = .ok settings) :
    0 < options.streaming.bufferSize := by
  obtain ⟨codec, h, -⟩ := except_bind_eq_ok.mp h
  obtain ⟨_, -, h⟩ := except_bind_eq_ok.mp h
  obtain ⟨_, hbuffer, -⟩ := except_bind_eq_ok.mp h
  exact Nat.pos_of_ne_zero (of_decide_eq_false (reject_eq_ok.mp hbuffer))

def AesSettings.prepare (aes : AesSettings) (enc : EncryptionOptions) : Write.PreparedEncryption :=
  { password := enc.password, numCyclesPower := aes.cyclesPower, saltLen := aes.saltLen.toNat,
    ivLen := aes.ivLen.toNat, encryptHeader := enc.encryptHeader, cycles_le := aes.cycles_le,
    salt_le := UInt8.le_iff_toNat_le.mp aes.salt_le, iv_le := UInt8.le_iff_toNat_le.mp aes.iv_le }

def prepareArchiveOptions (options : ArchiveOptions) :
    Except R7zError Write.PreparedArchiveOptions :=
  match h : validateArchiveOptions codecs options with
  | .error e => .error e
  | .ok settings =>
    .ok { codec := settings.codec
          dictSize := (lzmaOptions codecs options.compression).dictSize
          encryption := options.encryption.map settings.aes.prepare
          solid := options.compression.solid
          headerMode := options.headerMode
          bufferSize := options.streaming.bufferSize
          bufferSize_pos := validateArchiveOptions_bufferSize h }

end

end Options

end R7z
