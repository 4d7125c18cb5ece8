import R7z.Folder

/-! Where the packed streams lie and which folders unpack them. Every section has a parser that keeps
its data and a scanner that only walks it. -/

namespace R7z

open Wire Wire.Parser

inductive FolderLocation where
  | inline
  | external (index : Nat)
deriving DecidableEq, Repr

def parseFolderDeclaration : NomParser (UInt64 × FolderLocation) := do
  expectProperty .UnPackInfo
  expectProperty .Folder
  let count ← sevenzipVaruint64Decode
  let flag ← leU8
  if flag = 0 then pure (count, .inline)
  else if flag = 1 then
    let rawIndex ← sevenzipVaruint64Decode
    pure (count, .external rawIndex.toNat)
  else fail (.failure .verify)

inductive FolderSource where
  | inline (bytes : Slice)
  | external (data : Slice)

namespace FolderSource

def resolve (location : FolderLocation) (externalData : List Slice) : NomParser FolderSource :=
  match location with
  | .inline => do
    let here ← input
    pure (.inline here)
  | .external index =>
    match externalData[index]? with
    | some data => pure (.external data)
    | none => fail (.failure .eof)

def bytes : FolderSource → Slice
  | inline bytes => bytes
  | external data => data

/-- The header after the definitions: they are only part of it when they are inline. -/
def remainingHeader (source : FolderSource) (consumed : Nat) : NomParser Unit :=
  match source with
  | .inline _ => do
    let _ ← take (.failure .eof) consumed
  | .external _ => pure ()

def backing (source : FolderSource) (inlineBacking : Slice) : Slice :=
  match source with
  | .inline _ => inlineBacking
  | .external data => data

end FolderSource

def u32TryFrom (n : Nat) : Except ErrorKind UInt32 :=
  if n < 2 ^ 32 then .ok (UInt32.ofNat n) else .error .tooLarge

/-- The running totals over the folder definitions; the offsets are only kept by the parser. -/
structure FolderBlocks where
  offsets : Option (List UInt32)
  totalOutStreams : Nat

def recordOffset (data : Slice) (offsets : Option (List UInt32)) :
    Parser ErrorKind (Option (List UInt32)) :=
  match offsets with
  | none => pure none
  | some offsets => do
    let folders ← input
    let offset ← ofExcept (u32TryFrom (data.bytes.length - folders.bytes.length))
    pure (some (offsets ++ [offset]))

def scanFolderBlock (data : Slice) (acc : FolderBlocks) : Parser ErrorKind FolderBlocks := do
  let offsets ← recordOffset data acc.offsets
  let outStreams ← mapError NomErr.code scanFolder
  if acc.totalOutStreams + outStreams < usizeLimit then
    pure { offsets, totalOutStreams := acc.totalOutStreams + outStreams }
  else fail .tooLarge

def walkFolderBlocks (data : Slice) (count : Nat) (offsets : Option (List UInt32)) :
    Parser ErrorKind FolderBlocks := do
  let blocks ← iterate (scanFolderBlock data) count { offsets, totalOutStreams := 0 }
  let offsets ← recordOffset data blocks.offsets
  pure { blocks with offsets }

def scanFolderBlocks (data : Slice) (count : Nat) (offsets : Option (List UInt32)) :
    Except ErrorKind (FolderBlocks × Nat) := do
  let (blocks, folders) ← walkFolderBlocks data count offsets data
  pure (blocks, data.bytes.length - folders.bytes.length)

def parseDigests (numStreams : Nat) : NomParser (List (Option UInt32)) := do
  let allDefined ← leU8
  if allDefined = 0 then
    let bitmap ← takeBytes ((numStreams + 7) / 8)
    optionals (bitmapIsSet bitmap.bytes) leU32 numStreams
  else optionals (fun _ => true) leU32 numStreams

structure PackInfo where
  packPos : UInt64
  numPackStreams : UInt64
  packSize : List UInt64
  digests : List (Option UInt32)
deriving DecidableEq, Repr

def digestsOrAbsent (digests : List (Option UInt32)) (num : Nat) : List (Option UInt32) :=
  if digests.isEmpty then List.replicate num none else digests

namespace PackInfo

def turn (numPackStreams : Nat) (digests : List (Option UInt32)) :
    NomParser (Turn (List (Option UInt32)) (List (Option UInt32))) := do
  match ← Property.parse with
  | .END => pure (.done digests)
  | .CRC => do
    let crcs ← parseDigests numPackStreams
    pure (.again crcs)
  | _ => do
    skipSection
    pure (.again digests)

def parse : NomParser PackInfo := do
  expectProperty .PackInfo
  let packPos ← sevenzipVaruint64Decode
  let numPackStreams ← sevenzipVaruint64Decode
  expectProperty .Size
  let packSize ← count sevenzipVaruint64Decode numPackStreams.toNat
  let digests ← loop (.error .eof) (turn numPackStreams.toNat) []
  pure { packPos, numPackStreams, packSize, digests := digestsOrAbsent digests packSize.length }

end PackInfo

def scanPackTurn (numPackStreams : Nat) (_ : Unit) : NomParser (Turn Unit Unit) := do
  match ← Property.parse with
  | .END => pure (.done ())
  | .CRC => do
    scanDigests numPackStreams
    pure (.again ())
  | _ => do
    skipSection
    pure (.again ())

def scanPackInfo : NomParser Unit := do
  expectProperty .PackInfo
  let _ ← sevenzipVaruint64Decode
  let numPackStreams ← sevenzipVaruint64Decode
  expectProperty .Size
  skipMany sevenzipVaruint64Decode numPackStreams.toNat
  loop (.error .eof) (scanPackTurn numPackStreams.toNat) ()

structure UnpackInfo where
  numFolders : UInt64
  folderData : List UInt8
  folderOffsets : List UInt32
  unpackSizes : List UInt64
  digests : List (Option UInt32)
deriving DecidableEq, Repr

structure FolderDefinitions where
  numFolders : UInt64
  folderData : List UInt8
  folderOffsets : List UInt32
  totalOutStreams : Nat

namespace UnpackInfo

def numFoldersUsize (info : UnpackInfo) : Nat := info.folderOffsets.length - 1

def definitions (backing : Slice) (externalData : List Slice) : NomParser FolderDefinitions := do
  let (numFolders, location) ← parseFolderDeclaration
  let source ← FolderSource.resolve location externalData
  let (blocks, consumed) ← ofExcept
    ((scanFolderBlocks source.bytes numFolders.toNat (some [])).mapError NomErr.failure)
  let folderData ← ofExcept (bytesSubslice (source.backing backing)
    ⟨source.bytes.addr, source.bytes.bytes.take consumed⟩)
  source.remainingHeader consumed
  pure { numFolders, folderData, folderOffsets := blocks.offsets.getD [],
         totalOutStreams := blocks.totalOutStreams }

def turn (totalOutStreams numFolders : Nat) (acc : List UInt64 × List (Option UInt32)) :
    NomParser (Turn (List UInt64 × List (Option UInt32)) (List UInt64 × List (Option UInt32))) := do
  match ← Property.parse with
  | .END => pure (.done acc)
  | .CodersUnPackSize => do
    let sizes ← count sevenzipVaruint64Decode totalOutStreams
    pure (.again (acc.1 ++ sizes, acc.2))
  | .CRC => do
    let crcs ← parseDigests numFolders
    pure (.again (acc.1, crcs))
  | _ => do
    skipSection
    pure (.again acc)

def parseWithExternal (backing : Slice) (externalData : List Slice) : NomParser UnpackInfo := do
  let defs ← definitions backing externalData
  let (unpackSizes, digests) ←
    loop (.error .eof) (turn defs.totalOutStreams defs.numFolders.toNat) ([], [])
  pure { numFolders := defs.numFolders, folderData := defs.folderData,
         folderOffsets := defs.folderOffsets, unpackSizes,
         digests := digestsOrAbsent digests (defs.folderOffsets.length - 1) }

def parse (backing : Slice) : NomParser UnpackInfo := parseWithExternal backing []

end UnpackInfo

/-- The numbers of folders and of their output streams, once it is known where they are defined. -/
def scanDeclared (externalData : List Slice) (declaration : UInt64 × FolderLocation) :
    NomParser (Nat × Nat) := do
  let (numFolders, location) := declaration
  let source ← FolderSource.resolve location externalData
  let (blocks, consumed) ← ofExcept
    ((scanFolderBlocks source.bytes numFolders.toNat none).mapError NomErr.failure)
  source.remainingHeader consumed
  pure (numFolders.toNat, blocks.totalOutStreams)

def scanDefinitions (externalData : List Slice) : NomParser (Nat × Nat) := do
  let declaration ← parseFolderDeclaration
  scanDeclared externalData declaration

def scanUnpackTurn (totalOutStreams numFolders : Nat) (_ : Unit) : NomParser (Turn Unit Unit) := do
  match ← Property.parse with
  | .END => pure (.done ())
  | .CodersUnPackSize => do
    skipMany sevenzipVaruint64Decode totalOutStreams
    pure (.again ())
  | .CRC => do
    scanDigests numFolders
    pure (.again ())
  | _ => do
    skipSection
    pure (.again ())

def scanUnpackInfoWithExternal (externalData : List Slice) : NomParser Nat := do
  let (numFolders, totalOutStreams) ← scanDefinitions externalData
  loop (.error .eof) (scanUnpackTurn totalOutStreams numFolders) ()
  pure numFolders

end R7z
