import R7z.StreamInfo

/-! The file section of a header: names, times, attributes and the bit vectors that say which
entries own no stream. -/

namespace R7z

open Wire Wire.Parser

inductive EntryKind (S : Type) where
  | file (stream : S)
  | symlink (stream : S)
  | emptySymlink
  | emptyFile
  | directory
  | anti
deriving DecidableEq, Repr

structure FilesInfo where
  numFiles : UInt64
  nameData : List UInt8
  ctimes : List (Option UInt64)
  atimes : List (Option UInt64)
  mtimes : List (Option UInt64)
  startPositions : List (Option UInt64)
  attributes : List (Option UInt32)
  emptyStreams : List UInt8
  emptyFiles : List UInt8
  antiItems : List UInt8
  emptyStreamOrdinals : List (Option Nat)
deriving DecidableEq, Repr

/-- The bytes of the first name, or `none` when no terminator follows, and what is left. -/
def nextName : List UInt8 → Option (List UInt8) × List UInt8
  | a :: b :: rest =>
    if a = 0 ∧ b = 0 then (some [], rest)
    else ((nextName rest).1.map (a :: b :: ·), (nextName rest).2)
  | rest => (none, rest)

def nameSlicesFrom : Nat → List UInt8 → List (Option (List UInt8))
  | 0, _ => []
  | n + 1, data => (nextName data).1 :: nameSlicesFrom n (nextName data).2

namespace FilesInfo

def nameSlices (files : FilesInfo) : List (Option (List UInt8)) :=
  nameSlicesFrom files.numFiles.toNat files.nameData

def emptyStreamOrdinal (files : FilesInfo) (i : Nat) : Option Nat :=
  (files.emptyStreamOrdinals[i]?).join

def isEmptyStream (files : FilesInfo) (i : Nat) : Bool := bitmapIsSet files.emptyStreams i

def isEmptyFile (files : FilesInfo) (i : Nat) : Bool :=
  match files.emptyStreamOrdinal i with
  | none => false
  | some emptyIdx => bitmapIsSet files.emptyFiles emptyIdx

def isAnti (files : FilesInfo) (i : Nat) : Bool :=
  match files.emptyStreamOrdinal i with
  | none => false
  | some emptyIdx => bitmapIsSet files.antiItems emptyIdx

def hasSymlinkMode (attributes : Option UInt32) : Bool :=
  attributes.any fun attrs : UInt32 => (attrs >>> 16) &&& 0o170000 == 0o120000

def isSymlink (files : FilesInfo) (i : Nat) : Bool :=
  hasSymlinkMode (files.attributes[i]?).join

def entryKind (files : FilesInfo) (i : Nat) : EntryKind Unit :=
  match files.isAnti i, files.isEmptyStream i, files.isSymlink i, files.isEmptyFile i with
  | true, _, _, _ => .anti
  | false, false, false, _ => .file ()
  | false, false, true, _ => .symlink ()
  | false, true, true, _ => .emptySymlink
  | false, true, false, true => .emptyFile
  | false, true, false, false => .directory

end FilesInfo

def ordinalsFrom (emptyStreams : List UInt8) : List Nat → Nat → List (Option Nat)
  | [], _ => []
  | i :: is, nextEmpty =>
    if bitmapIsSet emptyStreams i then some nextEmpty :: ordinalsFrom emptyStreams is (nextEmpty + 1)
    else none :: ordinalsFrom emptyStreams is nextEmpty

def emptyStreamOrdinals (emptyStreams : List UInt8) (numFiles : Nat) : List (Option Nat) :=
  ordinalsFrom emptyStreams (List.range numFiles) 0

def propertyMask (tag : Property) : Option UInt32 :=
  match tag with
  | .Name | .CTime | .ATime | .MTime | .StartPos | .Attributes | .EmptyStream | .EmptyFile | .Anti =>
    some (1 <<< tag.toU8.toUInt32)
  | _ => none

def register (seen : UInt32) (tag : Property) : Except NomErr UInt32 :=
  match propertyMask tag with
  | none => .ok seen
  | some mask => if seen &&& mask ≠ 0 then .error (.error .verify) else .ok (seen ||| mask)

def externalPropertyData (indexBytes : Slice) (externalData : List Slice) :
    Except NomErr (List UInt8) :=
  match sevenzipVaruint64Decode indexBytes with
  | .error _ => .error (.error .verify)
  | .ok (index, remaining) =>
    if ¬remaining.bytes.isEmpty then .error (.error .verify)
    else match externalData[index.toNat]? with
      | some data => .ok data.bytes
      | none => .error (.error .eof)

def propertyData (payload backing : Slice) (externalData : List Slice) : Except NomErr (List UInt8) := do
  let (external, data) ← leU8 payload
  if external = 0 then bytesSubslice backing data
  else externalPropertyData data externalData

structure DefinedProperty where
  allDefined : UInt8
  bitmap : List UInt8
  values : List UInt8
deriving DecidableEq, Repr

def DefinedProperty.parse (block : Slice) (numValues : Nat) (backing : Slice)
    (externalData : List Slice) : Except NomErr DefinedProperty := do
  let (allDefined, payload) ← leU8 block
  let bitmapLen := if allDefined = 0 then (numValues + 7) / 8 else 0
  let (bitmap, payload) ← takeBytes bitmapLen payload
  let values ← propertyData payload backing externalData
  return { allDefined, bitmap := bitmap.bytes, values }

def skipName : List UInt8 → Option (List UInt8)
  | a :: b :: rest => if a = 0 ∧ b = 0 then some rest else skipName rest
  | _ => none

def skipNames : Nat → List UInt8 → Option (List UInt8)
  | 0, data => some data
  | n + 1, data => (skipName data).bind (skipNames n)

def validateNameData (data : List UInt8) (numNames : Nat) : Except NomErr Unit :=
  if skipNames numNames data = some [] then .ok () else .error (.error .verify)

def parseDefinedValues {α : Type} (value : NomParser α) (property : DefinedProperty) (numValues : Nat) :
    Except NomErr (List (Option α)) := do
  let (values, rest) ← optionals
    (fun index => property.allDefined ≠ 0 || bitmapIsSet property.bitmap index) value numValues
    ⟨0, property.values⟩
  if rest.bytes.isEmpty then .ok values else .error (.error .verify)

def parseDefinedU64Values (property : DefinedProperty) (numValues : Nat) :
    Except NomErr (List (Option UInt64)) := parseDefinedValues leU64 property numValues

def parseDefinedU32Values (property : DefinedProperty) (numValues : Nat) :
    Except NomErr (List (Option UInt32)) := parseDefinedValues leU32 property numValues

namespace FilesInfo

def empty (numFiles : UInt64) : FilesInfo :=
  { numFiles, nameData := [], ctimes := [], atimes := [], mtimes := [], startPositions := [],
    attributes := [], emptyStreams := [], emptyFiles := [], antiItems := [], emptyStreamOrdinals := [] }

def readProperty (files : FilesInfo) (tag : Property) (block backing : Slice)
    (externalData : List Slice) : Except NomErr FilesInfo := do
  let n := files.numFiles.toNat
  match tag with
  | .Name =>
    let nameData ← propertyData block backing externalData
    validateNameData nameData n
    return { files with nameData }
  | .CTime =>
    let property ← DefinedProperty.parse block n backing externalData
    let ctimes ← parseDefinedU64Values property n
    return { files with ctimes }
  | .ATime =>
    let property ← DefinedProperty.parse block n backing externalData
    let atimes ← parseDefinedU64Values property n
    return { files with atimes }
  | .MTime =>
    let property ← DefinedProperty.parse block n backing externalData
    let mtimes ← parseDefinedU64Values property n
    return { files with mtimes }
  | .StartPos =>
    let property ← DefinedProperty.parse block n backing externalData
    let startPositions ← parseDefinedU64Values property n
    return { files with startPositions }
  | .Attributes =>
    let property ← DefinedProperty.parse block n backing externalData
    let attributes ← parseDefinedU32Values property n
    return { files with attributes }
  | .EmptyStream =>
    let emptyStreams ← bytesSubslice backing block
    return { files with emptyStreams }
  | .EmptyFile =>
    let emptyFiles ← bytesSubslice backing block
    return { files with emptyFiles }
  | .Anti =>
    let antiItems ← bytesSubslice backing block
    return { files with antiItems }
  -- dummies and unknown properties: the block was cut out by its size, and is dropped
  | _ => return files

def turn (backing : Slice) (externalData : List Slice) (acc : FilesInfo × UInt32) :
    NomParser (Turn (FilesInfo × UInt32) FilesInfo) := do
  let tag ← Property.parse
  if tag = .END then pure (.done acc.1)
  else
    let seen ← ofExcept (register acc.2 tag)
    let size ← sevenzipVaruint64Decode
    let block ← takeBytes size.toNat
    let files ← ofExcept (readProperty acc.1 tag block backing externalData)
    pure (.again (files, seen))

def parseWithExternal (backing : Slice) (externalData : List Slice) : NomParser FilesInfo := do
  expectProperty .FilesInfo
  let numFiles ← sevenzipVaruint64Decode
  let files ← loop (.error .eof) (turn backing externalData) (empty numFiles, 0)
  pure { files with
         emptyStreamOrdinals := R7z.emptyStreamOrdinals files.emptyStreams numFiles.toNat }

def parse (backing : Slice) : NomParser FilesInfo := parseWithExternal backing []

end FilesInfo

def externalFlag (tag : Property) (block : List UInt8) (numFiles : Nat) : Option UInt8 :=
  match tag with
  | .Name => block.head?
  | .CTime | .ATime | .MTime | .StartPos | .Attributes =>
    match block.head? with
    | some allDefined => block[(if allDefined = 0 then 2 + (numFiles + 7) / 8 else 2) - 1]?
    | none => none
  | _ => none

def scanFilesTurn (numFiles : Nat) (usesExternalData : Bool) : NomParser (Turn Bool Bool) := do
  let tag ← Property.parse
  if tag = .END then pure (.done usesExternalData)
  else
    let size ← sevenzipVaruint64Decode
    let block ← takeBytes size.toNat
    let flag := externalFlag tag block.bytes numFiles
    pure (.again (usesExternalData || flag.any (· ≠ 0)))

def scanFilesInfoWithExternal : NomParser (UInt64 × Bool) := do
  expectProperty .FilesInfo
  let numFiles ← sevenzipVaruint64Decode
  let usesExternalData ← loop (.error .eof) (scanFilesTurn numFiles.toNat) false
  pure (numFiles, usesExternalData)

end R7z
