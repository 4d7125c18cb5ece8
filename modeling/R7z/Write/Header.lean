import R7z.Write.Model

/-! The header encoder. -/

namespace R7z.Write

open Wire

def boolsToBytes (values : List Bool) : List UInt8 := packBits values

def varuint (n : Nat) : List UInt8 := sevenzipVaruint64Encode (UInt64.ofNat n)

def writePackInfo (folders : List CompletedFolder) : List UInt8 :=
  [0x06] ++ varuint 0 ++ varuint (folders.map fun folder => folder.packSizes.length).sum ++ [0x09] ++
    (folders.flatMap fun folder => folder.packSizes.flatMap sevenzipVaruint64Encode) ++ [0x00]

def writeOptionalCrcs (crcs : List (Option UInt32)) : List UInt8 :=
  if ¬crcs.any Option.isSome then []
  else
    let allDefined := crcs.all Option.isSome
    [0x0A, if allDefined then 1 else 0] ++
      (if allDefined then [] else boolsToBytes (crcs.map Option.isSome)) ++
      ((crcs.filterMap id).flatMap fun crc => toLeBytes 4 crc.toNat)

def writeFolderCrcs (folders : List CompletedFolder) : List UInt8 :=
  writeOptionalCrcs (folders.map CompletedFolder.folderCrc)

def writeUnpackInfo (folders : List CompletedFolder) : List UInt8 :=
  [0x07, 0x0B] ++ varuint folders.length ++ [0x00] ++ (folders.flatMap CompletedFolder.coderInfo) ++
    [0x0C] ++ (folders.flatMap fun folder => folder.coderUnpackSizes.flatMap sevenzipVaruint64Encode) ++
    writeFolderCrcs folders ++ [0x00]

def writeSubstreamsInfo (folders : List CompletedFolder) : List UInt8 :=
  [0x08] ++
    (if folders.any fun f => f.fileIndices.length ≠ 1 then
      [0x0D] ++ folders.flatMap fun folder => varuint folder.fileIndices.length
    else []) ++
    (if folders.any fun f => f.fileIndices.length > 1 then
      [0x09] ++ folders.flatMap fun folder => folder.fileSizes.dropLast.flatMap sevenzipVaruint64Encode
    else []) ++
    writeOptionalCrcs (folders.flatMap CompletedFolder.fileCrcs) ++ [0x00]

def propertyBytes (tag : UInt8) (block : List UInt8) : List UInt8 :=
  [tag] ++ varuint block.length ++ block

def writeEmptyProperties (entries : List WriteEntry) : List UInt8 :=
  let empty := entries.map fun entry => !entry.stream.hasStream
  if ¬empty.any id then []
  else
    let emptyEntries := entries.filter fun entry => !entry.stream.hasStream
    let emptyFiles := emptyEntries.map fun entry => entry.kind == .File
    let anti := emptyEntries.map fun entry => entry.kind == .Anti
    propertyBytes 0x0E (boolsToBytes empty) ++
      (if emptyFiles.any id then propertyBytes 0x0F (boolsToBytes emptyFiles) else []) ++
      (if anti.any id then propertyBytes 0x10 (boolsToBytes anti) else [])

def nameBytes (entry : WriteEntry) : List UInt8 :=
  match entry.rawName with
  | some rawName => rawName.asUtf16le
  | none => utf16le entry.name

def nameData (entries : List WriteEntry) : List UInt8 :=
  entries.flatMap fun entry => nameBytes entry ++ [0, 0]

def writeNames (entries : List WriteEntry) : List UInt8 :=
  [0x11] ++ varuint (1 + (nameData entries).length) ++ [0x00] ++ nameData entries

def writeValueProperty (width : Nat) (tag : UInt8) (values : List (Option Nat)) : List UInt8 :=
  if ¬values.any Option.isSome then []
  else
    let allDefined := values.all Option.isSome
    let bitmap := if allDefined then [] else boolsToBytes (values.map Option.isSome)
    let dataLen := values.countP Option.isSome * width
    [tag] ++ varuint (1 + bitmap.length + 1 + dataLen) ++ [if allDefined then 1 else 0] ++ bitmap ++
      [0x00] ++ (values.filterMap id).flatMap (toLeBytes width)

def writeU64Property (tag : UInt8) (entries : List WriteEntry) (value : WriteEntry → Option UInt64) :
    List UInt8 := writeValueProperty 8 tag (entries.map fun e => (value e).map UInt64.toNat)

def writeU32Property (tag : UInt8) (entries : List WriteEntry) (value : WriteEntry → Option UInt32) :
    List UInt8 := writeValueProperty 4 tag (entries.map fun e => (value e).map UInt32.toNat)

/-- 100 ns ticks since 1601, saturating; times before the Unix epoch are written as zero. -/
def systemTimeToFiletime (t : SystemTime) : UInt64 :=
  if t.nanos < 0 then 0
  else
    let nanos := t.nanos.toNat
    let secs := min (nanos / 1000000000 + 11644473600) (2 ^ 64 - 1)
    let ticks := min (secs * 10000000) (2 ^ 64 - 1)
    UInt64.ofNat (min (ticks + nanos % 1000000000 / 100) (2 ^ 64 - 1))

def writeTimeProperty (tag : UInt8) (entries : List WriteEntry)
    (value : WriteEntry → Option SystemTime) : List UInt8 :=
  writeU64Property tag entries fun e => (value e).map systemTimeToFiletime

def writeFilesInfo (entries : List WriteEntry) : List UInt8 :=
  [0x05] ++ varuint entries.length ++ writeEmptyProperties entries ++ writeNames entries ++
    writeTimeProperty 0x12 entries (fun e => e.metadata.ctime) ++
    writeTimeProperty 0x13 entries (fun e => e.metadata.atime) ++
    writeTimeProperty 0x14 entries (fun e => e.metadata.mtime) ++
    writeU64Property 0x18 entries (fun e => e.metadata.startPos) ++
    writeU32Property 0x15 entries (fun e => e.metadata.attributes) ++ [0x00]

def writeStreamsInfo (folders : List CompletedFolder) : List UInt8 :=
  writePackInfo folders ++ writeUnpackInfo folders ++ writeSubstreamsInfo folders ++ [0x00]

def buildHeader (entries : List WriteEntry) (folders : List CompletedFolder) : List UInt8 :=
  [0x01] ++ (if folders.isEmpty then [] else [0x04] ++ writeStreamsInfo folders) ++
    writeFilesInfo entries ++ [0x00]

def buildEncodedHeaderDescriptor (packPos packSize : UInt64) (coderInfo : List UInt8)
    (coderUnpackSizes : List UInt64) : List UInt8 :=
  [0x17, 0x06] ++ sevenzipVaruint64Encode packPos ++ varuint 1 ++ [0x09] ++
    sevenzipVaruint64Encode packSize ++ [0x00] ++ [0x07, 0x0B] ++ varuint 1 ++ [0x00] ++ coderInfo ++
    [0x0C] ++ coderUnpackSizes.flatMap sevenzipVaruint64Encode ++ [0x00, 0x00]

end R7z.Write
