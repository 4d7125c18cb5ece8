import R7z.FolderGraph

/-! How the methods of a folder are named in a listing. -/

namespace R7z

def SevenZMethod.name : SevenZMethod → String
  | Copy => "Copy"
  | Lzma => "LZMA"
  | Lzma2 => "LZMA2"
  | BZip2 => "BZip2"
  | Ppmd => "PPMd"
  | Deflate => "Deflate"
  | Deflate64 => "Deflate64"
  | Bcj => "BCJ"
  | Bcj2 => "BCJ2"
  | Arm => "ARM"
  | Arm64 => "ARM64"
  | ArmThumb => "ARMT"
  | Ia64 => "IA64"
  | Ppc => "PPC"
  | Sparc => "SPARC"
  | Riscv => "RISCV"
  | Delta => "Delta"
  | Swap2 => "Swap2"
  | Swap4 => "Swap4"
  | Zstd => "ZSTD"
  | Brotli => "BROTLI"
  | Lz4 => "LZ4"
  | Lz5 => "LZ5"
  | Lizard => "LIZARD"
  | FastLzma2 => "FLZMA2"
  | Lzham => "LZHAM"
  | SevenZAes => "7zAES"
  | Aes256Cbc => "AES256CBC"

def hexDigits (byte : UInt8) : String :=
  let digit (n : ℕ) : Char := if n < 10 then Char.ofNat (48 + n) else Char.ofNat (55 + n)
  String.ofList [digit (byte.toNat / 16), digit (byte.toNat % 16)]

def unknownMethodName (id : List UInt8) : String :=
  "[" ++ ", ".intercalate (id.map hexDigits) ++ "]"

def dictionaryBits (size : ℕ) : Option ℕ := (List.range 32).find? fun bits => 2 ^ bits == size

def littleEndian32 (a b c d : UInt8) : ℕ :=
  a.toNat + 256 * b.toNat + 65536 * c.toNat + 16777216 * d.toNat

def lzmaDictionaryBits : List UInt8 → Option ℕ
  | [_, a, b, c, d] => dictionaryBits (littleEndian32 a b c d)
  | _ => none

def lzma2DictionaryBits : List UInt8 → Option ℕ
  | [prop] =>
    if prop.toNat < 40 then dictionaryBits ((2 + prop.toNat % 2) * 2 ^ (prop.toNat / 2 + 11))
    else if prop.toNat = 40 then dictionaryBits (2 ^ 32 - 1)
    else none
  | _ => none

def ppmdMethodText (coder : CoderInfo) : Option String :=
  match coder.properties with
  | some [order, a, b, c, d] =>
    let size := littleEndian32 a b c d
    some ("PPMD:o" ++ toString order.toNat ++ ":mem" ++ toString ((dictionaryBits size).getD size))
  | _ => none

def withNumber (name : String) (number : Option ℕ) : String :=
  match number with
  | some n => name ++ ":" ++ toString n
  | none => name

def entryMethodName (coder : CoderInfo) : String :=
  match methodFromId coder.codecId.bytes with
  | some .Lzma => withNumber "LZMA" (coder.properties.bind lzmaDictionaryBits)
  | some .Lzma2 => withNumber "LZMA2" (coder.properties.bind lzma2DictionaryBits)
  | some .Ppmd => (ppmdMethodText coder).getD "PPMD"
  | some .SevenZAes =>
    withNumber "7zAES" (coder.properties.bind fun props => props.head?.map fun byte => (byte &&& 0x3f).toNat)
  | some method => method.name
  | none => unknownMethodName coder.codecId.bytes

def archiveMethodName (coder : CoderInfo) : String :=
  match methodFromId coder.codecId.bytes with
  | some .Lzma | some .Lzma2 => entryMethodName coder
  | some .Ppmd => "PPMD"
  | some .SevenZAes => "7zAES"
  | some method => method.name
  | none => unknownMethodName coder.codecId.bytes

def isCryptoMethodName (name : String) : Bool :=
  "7zAES".toList.isPrefixOf name.toList || "AES256CBC".toList.isPrefixOf name.toList

def p7zipMethodOrder (names : List String) : List String :=
  names.filter (fun name => !isCryptoMethodName name) ++ names.filter isCryptoMethodName

def folderMethodNames (coders : List CoderInfo) : List String := p7zipMethodOrder (coders.map entryMethodName)

def archiveMethodNames (coders : List CoderInfo) : List String :=
  p7zipMethodOrder ((coders.map archiveMethodName).foldl
    (fun names name => if names.contains name then names else names ++ [name]) [])

def folderIsEncrypted (coders : List CoderInfo) : Bool :=
  coders.any fun coder => coder.codecId.bytes == SevenZMethod.id .SevenZAes

end R7z
