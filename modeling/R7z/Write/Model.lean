import R7z.FilesInfo

/-! What the writer keeps of an archive until its header is written: the entries, and the folders
whose packed data is already out. -/

namespace R7z

/-- Two-byte units: an even number of bytes, and no unit of two zeros at an even offset. -/
def UnitsWithoutNul : List UInt8 → Prop
  | [] => True
  | [_] => False
  | a :: b :: rest => ¬(a = 0 ∧ b = 0) ∧ UnitsWithoutNul rest

instance : ∀ bytes, Decidable (UnitsWithoutNul bytes)
  | [] => isTrue trivial
  | [_] => isFalse id
  | a :: b :: rest =>
    have : Decidable (UnitsWithoutNul rest) := instDecidableUnitsWithoutNul rest
    inferInstanceAs (Decidable (¬(a = 0 ∧ b = 0) ∧ UnitsWithoutNul rest))

structure RawEntryName where
  asUtf16le : List UInt8
  valid : UnitsWithoutNul asUtf16le
deriving DecidableEq

def RawEntryName.fromUtf16le (bytes : List UInt8) : Option RawEntryName :=
  if h : UnitsWithoutNul bytes then some ⟨bytes, h⟩ else none

def charUtf16 (c : Char) : List UInt16 :=
  if c.toNat < 0x10000 then [UInt16.ofNat c.toNat]
  else
    let high := c.toNat - 0x10000
    [UInt16.ofNat (0xD800 + high / 0x400), UInt16.ofNat (0xDC00 + high % 0x400)]

def encodeUtf16 (s : String) : List UInt16 := s.toList.flatMap charUtf16

def utf16le (s : String) : List UInt8 := (encodeUtf16 s).flatMap fun unit => toLeBytes 2 unit.toNat

/-- Nanoseconds since the Unix epoch. -/
structure SystemTime where
  nanos : Int
deriving DecidableEq, Repr

namespace Write

inductive EntryKind where
  | File | Directory | Anti
deriving DecidableEq, Repr

structure EntryMeta where
  ctime : Option SystemTime
  atime : Option SystemTime
  mtime : Option SystemTime
  attributes : Option UInt32
  startPos : Option UInt64
deriving DecidableEq, Repr

def EntryMeta.default : EntryMeta :=
  { ctime := none, atime := none, mtime := none, attributes := none, startPos := none }

def EntryMeta.withSymlinkDefault (metadata : EntryMeta) : EntryMeta :=
  if metadata.attributes.isNone then { metadata with attributes := some (((0o120777 : UInt32) <<< 16) ||| 0x20) }
  else metadata

structure ArchiveEntry where
  name : String
  kind : EntryKind
  metadata : EntryMeta
deriving DecidableEq, Repr

abbrev WriteFolderId := Nat

inductive WriteEntryStream where
  | Empty
  | Buffered (data : List UInt8)
  | Streaming
deriving DecidableEq, Repr

def WriteEntryStream.hasStream : WriteEntryStream → Bool
  | Empty => false
  | Buffered _ => true
  | Streaming => true

structure WriteEntry where
  name : String
  rawName : Option RawEntryName
  kind : EntryKind
  metadata : EntryMeta
  stream : WriteEntryStream
  folderId : WriteFolderId
deriving DecidableEq

abbrev WriteEntryIndex := Nat

structure CompletedFolder where
  fileIndices : List WriteEntryIndex
  packSizes : List UInt64
  coderInfo : List UInt8
  coderUnpackSizes : List UInt64
  folderCrc : Option UInt32
  fileSizes : List UInt64
  fileCrcs : List (Option UInt32)
deriving DecidableEq, Repr

end Write

end R7z
