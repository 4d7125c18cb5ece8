import R7z.Effect.Machine
import R7z.Write.Header
import R7z.Headers

/-! What a folder's data goes through on its way to the output: an encoder, a cipher, a counter. The
encoders are given by what they hand on, so that the output is written as the data comes in. -/

namespace R7z.Write

open Effect Effect.Machine

/-- The bytes an encoder hands on when it is given a chunk after earlier ones, and when it is closed. -/
structure Encoder where
  emit : List (List UInt8) → List UInt8 → List UInt8
  close : List (List UInt8) → List UInt8

def Encoder.emitted (encoder : Encoder) : List (List UInt8) → List (List UInt8) → List UInt8
  | _, [] => []
  | before, chunk :: chunks =>
    encoder.emit before chunk ++ Encoder.emitted encoder (before ++ [chunk]) chunks

def Encoder.encode (encoder : Encoder) (chunks : List (List UInt8)) : List UInt8 :=
  encoder.emitted [] chunks ++ encoder.close chunks

inductive PreparedCodec where
  | Copy
  | Lzma
  | Lzma2
  | Ppmd (order : UInt8) (memorySize : UInt32)
  | Lzma2Bcj
deriving DecidableEq, Repr

inductive HeaderMode where
  | P7zipDefault | Plain | Encoded
deriving DecidableEq, Repr

abbrev NonZeroU64 := { n : UInt64 // n ≠ 0 }

inductive SolidMode where
  | Solid
  | NonSolid
  | Limit (maxFiles maxBytes : Option NonZeroU64)
deriving DecidableEq

structure PreparedEncryption where
  password : String
  numCyclesPower : UInt8
  saltLen : Nat
  ivLen : Nat
  encryptHeader : Bool
  cycles_le : numCyclesPower ≤ 24
  salt_le : saltLen ≤ 16
  iv_le : ivLen ≤ 16
deriving DecidableEq

structure PreparedArchiveOptions where
  codec : PreparedCodec
  dictSize : UInt32
  encryption : Option PreparedEncryption
  solid : SolidMode
  headerMode : HeaderMode
  bufferSize : Nat
  bufferSize_pos : 0 < bufferSize
deriving DecidableEq

/-- Something outside the writer failed; of a write, so many bytes were out already. -/
structure Fault where
  error : R7zError
  written : Nat

/-- What the writer rests on: how each call to the outside ends, in the order of the calls, random
bytes, the encoders, the cipher and the checksum. -/
structure Outside where
  fault : Nat → Option Fault
  entropy : Nat → Nat → UInt8
  lzma2 : PreparedArchiveOptions → Option UInt64 → Encoder
  lzma : PreparedArchiveOptions → Encoder
  lzmaProps : PreparedArchiveOptions → UInt8
  ppmd : UInt8 → UInt32 → Encoder
  bcjLzma2 : PreparedArchiveOptions → Option UInt64 → Encoder
  deriveKey : String → List UInt8 → UInt8 → List UInt8
  aes : List UInt8 → List UInt8 → Encoder
  compressLzma : List UInt8 → List UInt8 × List UInt8
  crc32 : List UInt8 → UInt32

/-- A file that is written at a position, as `Write` and `Seek` see it. -/
structure Sink where
  content : List UInt8
  position : Nat
deriving DecidableEq, Repr

def Sink.seek (sink : Sink) (position : Nat) : Sink := { sink with position }

/-- Bytes past the end of the file are zeros until they are written. -/
def Sink.write (sink : Sink) (bytes : List UInt8) : Sink :=
  { content := sink.content.take sink.position ++
      List.replicate (sink.position - sink.content.length) 0 ++ bytes ++
      sink.content.drop (sink.position + bytes.length)
    position := sink.position + bytes.length }

/-! Coder descriptions -/

inductive CoderSpec where
  | Copy
  | Lzma (props : List UInt8)
  | Lzma2 (prop : UInt8)
  | Ppmd (props : List UInt8)
  | Bcj
deriving DecidableEq, Repr

def encodeCoderInfoCopy : List UInt8 := varuint 1 ++ [0x01, 0x00]

def encodeCoderInfoLzma (props : List UInt8) : List UInt8 :=
  varuint 1 ++ [0x23, 0x03, 0x01, 0x01] ++ varuint 5 ++ props

def encodeCoderInfoLzma2 (propsByte : UInt8) : List UInt8 :=
  varuint 1 ++ [0x21, 0x21] ++ varuint 1 ++ [propsByte]

def encodeCoderInfoPpmd (props : List UInt8) : List UInt8 :=
  varuint 1 ++ [0x23, 0x03, 0x04, 0x01] ++ varuint 5 ++ props

def encodeCoderInfoBcjLzma2 (propsByte : UInt8) : List UInt8 :=
  varuint 2 ++ [0x21, 0x21] ++ varuint 1 ++ [propsByte] ++ [0x04, 0x03, 0x03, 0x01, 0x03] ++
    varuint 1 ++ varuint 0

def encodeCoderSpec : CoderSpec → List UInt8
  | .Copy => [0x01, 0x00]
  | .Lzma props => [0x23, 0x03, 0x01, 0x01] ++ varuint 5 ++ props
  | .Lzma2 prop => [0x21, 0x21] ++ varuint 1 ++ [prop]
  | .Ppmd props => [0x23, 0x03, 0x04, 0x01] ++ varuint 5 ++ props
  | .Bcj => [0x04, 0x03, 0x03, 0x01, 0x03]

def encodeCoderInfoAesThen (inner : List CoderSpec) (aesProps : List UInt8) : List UInt8 :=
  varuint (1 + inner.length) ++ [0x24, 0x06, 0xF1, 0x07, 0x01] ++ varuint aesProps.length ++ aesProps ++
    inner.flatMap encodeCoderSpec ++
    (List.range inner.length).flatMap fun outIdx => varuint (outIdx + 1) ++ varuint outIdx

def encodeAesProperties (numCyclesPower : UInt8) (salt iv : List UInt8) : List UInt8 :=
  [(numCyclesPower &&& 0x3F) ||| (if salt.isEmpty then 0 else 0x80) ||| (if iv.isEmpty then 0 else 0x40)] ++
    if salt.isEmpty ∧ iv.isEmpty then []
    else [(UInt8.ofNat (salt.length - 1) <<< 4) ||| UInt8.ofNat (iv.length - 1)] ++ salt ++ iv

def encodeLzma2DictSize (dictSize : UInt32) : Except R7zError UInt8 :=
  if dictSize < 4096 then .error (.invalidOptions "dictionary_size must be at least 4096 bytes")
  else if dictSize = 0xFFFFFFFF then .ok 40
  else
    let holds (prop : Nat) : Bool := dictSize.toNat ≤ (2 + prop % 2) * 2 ^ (prop / 2 + 11)
    match (List.range 40).find? holds with
    | some prop => .ok (UInt8.ofNat prop)
    | none => .error (.invalidOptions "dictionary_size is too large")

def lzma2PropertyByte (prepared : PreparedArchiveOptions) : Except R7zError UInt8 :=
  encodeLzma2DictSize prepared.dictSize

end R7z.Write
