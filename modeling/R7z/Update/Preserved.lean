import R7z.Listing
import R7z.Order.Runs
import R7z.Write.Builder

/-! Updates of an archive: folders of the source are copied as they are, other entries are encoded,
and the rows of the update say which entry goes where. -/

namespace R7z

/-- Something that is read at a position: every range is there, or cannot be read. -/
structure ArchiveSource where
  bytes : List UInt8
  fails : Nat → Nat → Option R7zError

/-- An opened archive: which one it is, its header, and where it starts in its source. -/
structure Archive where
  identity : Nat
  header : Header
  source : ArchiveSource
  baseOffset : Nat

/-- A folder of one particular archive. -/
structure RawFolderHandle where
  archiveIdentity : Nat
  index : Nat
deriving DecidableEq, Repr

def RawFolderHandle.belongsTo (handle : RawFolderHandle) (archive : Archive) : Bool :=
  handle.archiveIdentity = archive.identity

/-- Packed bytes and folder metadata, copied without decoding. -/
structure RawFolderBlock where
  folderInfo : List UInt8
  packedStreams : List (List UInt8)
  packSizes : List UInt64
  coderUnpackSizes : List UInt64
  folderCrc : Option UInt32
  handle : RawFolderHandle
deriving DecidableEq, Repr

namespace Write

open Wire Effect Effect.Machine

inductive PreservedEntryStream where
  | None
  | Data (data : List UInt8)
  | Path (file : Except R7zError Reader) (size : UInt64)
  | Raw (folder : RawFolderHandle) (sourceEntry : Nat) (size : Nat) (crc : Option UInt32)

structure PreservedArchiveEntry where
  name : String
  rawName : Option RawEntryName
  kind : EntryKind
  metadata : EntryMeta
  stream : PreservedEntryStream

/-! Validation against the source -/

def validateRawRow (source : Archive) (listing : ArchiveListing) (rawFolders : List RawFolderBlock)
    (folder : RawFolderHandle) (sourceEntry size : Nat) (crc : Option UInt32) : Except R7zError Unit :=
  match (listing.entries[sourceEntry]?).filter fun info => info.index = sourceEntry with
  | none => .error .invalidRawFolderLayout
  | some info =>
    if ¬folder.belongsTo source ∨ ¬rawFolders.any fun raw => raw.handle = folder then
      .error .archiveMismatch
    else if info.block ≠ some folder.index ∨ info.size ≠ some size ∨ info.crc ≠ crc then
      .error .invalidRawFolderLayout
    else .ok ()

def validateRawRows (source : Archive) (listing : ArchiveListing) (rawFolders : List RawFolderBlock) :
    List PreservedArchiveEntry → Except R7zError (List (Nat × Nat))
  | [] => .ok []
  | preserved :: rest =>
    match preserved.stream with
    | .Raw folder sourceEntry size crc => do
      validateRawRow source listing rawFolders folder sourceEntry size crc
      let rows ← validateRawRows source listing rawFolders rest
      return (folder.index, sourceEntry) :: rows
    | _ => validateRawRows source listing rawFolders rest

def folderEntries (listing : ArchiveListing) (folder : Nat) : List Nat :=
  (listing.entries.filter fun entry => entry.block = some folder).map ArchiveListingEntry.index

def rawEntries (rows : List (Nat × Nat)) (folder : Nat) : List Nat :=
  (rows.filter fun row => row.1 = folder).map Prod.snd

def validateRawFolderUpdate (source : Archive) (entries : List PreservedArchiveEntry)
    (rawFolders : List RawFolderBlock) : Except R7zError Unit :=
  if rawFolders.any fun folder => ¬folder.handle.belongsTo source then .error .archiveMismatch
  else do
    let listing ← source.header.listing (some source.source.bytes.length)
    let rows ← validateRawRows source listing rawFolders entries
    if rows.any fun row => rawEntries rows row.1 ≠ folderEntries listing row.1 then
      .error .invalidRawFolderLayout
    else .ok ()

/-! Staging -/

inductive StagedFolderData where
  | Data (data : List UInt8)
  | Path (file : Except R7zError Reader) (size : UInt64)
  | Raw (size : Nat) (crc : Option UInt32)

inductive StagedStream where
  | None
  | Folder (id : WriteFolderId) (data : StagedFolderData)

structure StagedEntry where
  name : String
  rawName : Option RawEntryName
  kind : EntryKind
  metadata : EntryMeta
  stream : StagedStream

def StagedEntry.folderId (entry : StagedEntry) : Option WriteFolderId :=
  match entry.stream with
  | .None => none
  | .Folder id _ => some id

def StagedEntry.intoWriteEntry (entry : StagedEntry) : WriteEntry :=
  { name := entry.name, rawName := entry.rawName, kind := entry.kind, metadata := entry.metadata
    stream := match entry.stream with
      | .None => .Empty
      | .Folder _ _ => .Streaming
    folderId := entry.folderId.getD 0 }

/-- The folders that new data goes to: the next free number, and the folder in use. -/
structure StagedDataFolders where
  next : WriteFolderId
  current : Option (WriteFolderId × FolderProgress)
deriving DecidableEq

namespace StagedDataFolders

def new (next : WriteFolderId) : StagedDataFolders := { next, current := none }

def openFolder (folders : StagedDataFolders) (solid : SolidMode) (size : UInt64) :
    Except R7zError (StagedDataFolders × WriteFolderId × FolderProgress) := do
  let fresh : Except R7zError (StagedDataFolders × WriteFolderId × FolderProgress) := do
    let next ← WriteFolderId.next folders.next
    return ({ next, current := some (folders.next, FolderProgress.default) }, folders.next,
      FolderProgress.default)
  match folders.current with
  | none => fresh
  | some (id, progress) => do
    let exceeds ← progress.wouldExceed solid size
    if exceeds then fresh else return (folders, id, progress)

def assign (folders : StagedDataFolders) (solid : SolidMode) (size : UInt64) :
    Except R7zError (StagedDataFolders × WriteFolderId) := do
  let (folders, id, progress) ← folders.openFolder solid size
  let progress ← progress.record size
  return ({ folders with current := some (id, progress) }, id)

def breakFolder (folders : StagedDataFolders) : StagedDataFolders := { folders with current := none }

end StagedDataFolders

/-- The raw folder that goes by a number in the output; of two the later one counts. -/
def rawById (rawFolders : List RawFolderBlock) (id : WriteFolderId) : Option RawFolderBlock :=
  rawFolders.reverse.find? fun raw => raw.handle.index = id

def maxRawFolder (rawFolders : List RawFolderBlock) : WriteFolderId :=
  (rawFolders.map fun raw => raw.handle.index).foldr max 0

def stageStream (rawFolders : List RawFolderBlock) (solid : SolidMode) (folders : StagedDataFolders) :
    PreservedEntryStream → Except R7zError (StagedDataFolders × StagedStream)
  | .None => .ok (folders, .None)
  | .Raw folder _ size crc =>
    if (rawById rawFolders folder.index).all fun raw => raw.handle ≠ folder then
      .error .archiveMismatch
    else .ok (folders.breakFolder, .Folder folder.index (.Raw size crc))
  | .Data data => do
    let (folders, id) ← folders.assign solid (UInt64.ofNat data.length)
    return (folders, .Folder id (.Data data))
  | .Path file size => do
    let (folders, id) ← folders.assign solid size
    return (folders, .Folder id (.Path file size))

def stageEntries (rawFolders : List RawFolderBlock) (solid : SolidMode) :
    StagedDataFolders → List PreservedArchiveEntry → Except R7zError (List StagedEntry)
  | _, [] => .ok []
  | folders, entry :: entries => do
    let (folders, stream) ← stageStream rawFolders solid folders entry.stream
    let staged ← stageEntries rawFolders solid folders entries
    return { name := entry.name, rawName := entry.rawName, kind := entry.kind,
             metadata := entry.metadata, stream } :: staged

/-- The folders of the output, in the order they are first met. -/
def folderOrder (ids : List WriteFolderId) : List WriteFolderId :=
  ids.foldl (fun order id => if id ∈ order then order else order ++ [id]) []

structure StagedPreserved where
  entries : List StagedEntry
  folderOrder : List WriteFolderId

def stagePreservedEntries (entries : List PreservedArchiveEntry) (rawFolders : List RawFolderBlock)
    (solid : SolidMode) : Except R7zError StagedPreserved := do
  let nextDataFolder ← WriteFolderId.next (maxRawFolder rawFolders)
  let staged ← stageEntries rawFolders solid (.new nextDataFolder) entries
  let ids := staged.filterMap StagedEntry.folderId
  if Runs.runsFrom none [] ids then return { entries := staged, folderOrder := folderOrder ids }
  else .error .invalidRawFolderLayout

/-! Writing -/

def stagedStreamSize (entry : StagedEntry) : UInt64 :=
  match entry.stream with
  | .None => 0
  | .Folder _ (.Data data) => UInt64.ofNat data.length
  | .Folder _ (.Path _ size) => size
  | .Folder _ (.Raw size _) => UInt64.ofNat size

section
variable (outside : Outside)

def stagedStreamCrc (entry : StagedEntry) : Except R7zError (Option UInt32) :=
  match entry.stream with
  | .None => .ok none
  | .Folder _ (.Raw _ crc) => .ok crc
  | .Folder _ (.Data data) => .ok (some (outside.crc32 data))
  | .Folder _ (.Path file _) => do
    let reader ← file
    let chunks ← reader.mapM id
    return some (outside.crc32 chunks.flatten)

def folderFile (entries : List StagedEntry) (entryIndex : WriteEntryIndex) :
    Except R7zError FolderFile :=
  match entries[entryIndex]? with
  | none => .error .parse
  | some stream => do
    let crc ← stagedStreamCrc outside stream
    return { entryIndex, size := stagedStreamSize stream, crc }

def writePacked (prepared : PreparedArchiveOptions) (packed : List UInt8) (count : UInt64) :
    WriterM UInt64 :=
  (packed.toChunks prepared.bufferSize).foldlM (fun count chunk => do
    external outside
    let count ← countedWrite outside count chunk
    external outside
    pure count) count

def writePackedStreams (prepared : PreparedArchiveOptions) :
    List (List UInt8 × UInt64) → UInt64 → WriterM UInt64
  | [], count => pure count
  | (packed, size) :: rest, count =>
    if packed.length ≠ size.toNat then fail .parse
    else do
      let count ← writePacked outside prepared packed count
      writePackedStreams prepared rest count

def StreamingFolder.raw (prepared : PreparedArchiveOptions) (raw : RawFolderBlock)
    (entries : List StagedEntry) (fileIndices : List WriteEntryIndex) : WriterM StreamingFolder := do
  external outside
  if raw.packedStreams.length ≠ raw.packSizes.length then fail .parse
  else do
    let count ← writePackedStreams outside prepared (raw.packedStreams.zip raw.packSizes) 0
    let files ← ofExcept (fileIndices.mapM (folderFile outside entries))
    pure { encoder := .Raw count raw.packSizes raw.folderInfo raw.coderUnpackSizes raw.folderCrc
           files, unpackSize := 0 }

def stagedReader (prepared : PreparedArchiveOptions) (entry : StagedEntry) :
    Except R7zError (UInt64 × Except R7zError Reader) :=
  match entry.stream with
  | .Folder _ (.Data data) =>
    .ok (UInt64.ofNat data.length, .ok (ArchiveWriter.sliceReader prepared data))
  | .Folder _ (.Path file size) => .ok (size, file)
  | _ => .error .parse

def writeStagedReader (prepared : PreparedArchiveOptions) :
    Reader → StreamingFolder → List UInt8 → UInt64 →
      WriterM (StreamingFolder × UInt64 × UInt32)
  | reader, folder, seen, size => do
    let chunk ← ArchiveWriter.read outside reader
    match reader with
    | [] => pure (folder, size, outside.crc32 seen)
    | _ :: reader =>
      if chunk.isEmpty then pure (folder, size, outside.crc32 seen)
      else do
        let folder ← folder.write outside prepared chunk
        let size ← ofExcept (checkedAddU64 size (UInt64.ofNat chunk.length))
        writeStagedReader prepared reader folder (seen ++ chunk) size

def writeStagedEntries (prepared : PreparedArchiveOptions) :
    List (WriteEntryIndex × Except R7zError Reader) → StreamingFolder → WriterM StreamingFolder
  | [], folder => pure folder
  | (index, file) :: rest, folder => do
    let reader ← ofExcept file
    let (folder, size, checksum) ← writeStagedReader outside prepared reader folder [] 0
    let folder ← ofExcept (folder.recordStream index size checksum)
    writeStagedEntries prepared rest folder

def stagedDataEntry (prepared : PreparedArchiveOptions) (entries : List StagedEntry)
    (index : WriteEntryIndex) : Except R7zError (UInt64 × WriteEntryIndex × Except R7zError Reader) :=
  match entries[index]? with
  | none => .error .parse
  | some entry => do
    let (size, reader) ← stagedReader prepared entry
    return (size, index, reader)

def writeEncodedFolderStreaming (prepared : PreparedArchiveOptions) (entries : List StagedEntry)
    (fileIndices : List WriteEntryIndex) : WriterM CompletedFolder := do
  let dataEntries ← ofExcept (fileIndices.mapM (stagedDataEntry prepared entries))
  let knownSize ← ofExcept ((dataEntries.map Prod.fst).foldlM checkedAddU64 0)
  let folder ← StreamingFolder.encoded outside (some knownSize) prepared
  let folder ← writeStagedEntries outside prepared (dataEntries.map Prod.snd) folder
  folder.complete outside prepared

def folderFileIndices (entries : List StagedEntry) (id : WriteFolderId) : List WriteEntryIndex :=
  (List.range entries.length).filter fun index =>
    ((entries[index]?).bind StagedEntry.folderId) = some id

def writeStagedFolder (prepared : PreparedArchiveOptions) (rawFolders : List RawFolderBlock)
    (entries : List StagedEntry) (id : WriteFolderId) : WriterM CompletedFolder :=
  match rawById rawFolders id with
  | some raw => do
    let folder ← StreamingFolder.raw outside prepared raw entries (folderFileIndices entries id)
    folder.complete outside prepared
  | none => writeEncodedFolderStreaming outside prepared entries (folderFileIndices entries id)

def writeStagedFolders (prepared : PreparedArchiveOptions) (rawFolders : List RawFolderBlock)
    (entries : List StagedEntry) : List WriteFolderId → WriterM (List CompletedFolder)
  | [] => pure []
  | id :: ids => do
    let folder ← writeStagedFolder outside prepared rawFolders entries id
    let folders ← writeStagedFolders prepared rawFolders entries ids
    pure (folder :: folders)

def reserveRetained (entry : PreservedArchiveEntry) : WriterM Unit :=
  match entry.stream with
  | .Data _ => external outside
  | _ => pure ()

def writeStaged (prepared : PreparedArchiveOptions) (rawFolders : List RawFolderBlock)
    (staged : StagedPreserved) : WriterM Unit := do
  seek outside 0
  writeAll outside (List.replicate 32 0)
  let completed ← writeStagedFolders outside prepared rawFolders staged.entries staged.folderOrder
  finishStreamedArchive outside (staged.entries.map StagedEntry.intoWriteEntry) completed prepared

def writePreservedArchive (options : Except R7zError PreparedArchiveOptions)
    (entries : List PreservedArchiveEntry) (rawFolders : List RawFolderBlock) : WriterM Unit := do
  let prepared ← ofExcept options
  external outside
  forEach (reserveRetained outside) entries
  let staged ← ofExcept (stagePreservedEntries entries rawFolders prepared.solid)
  writeStaged outside prepared rawFolders staged

def writeArchiveUpdate (source : Archive) (options : Except R7zError PreparedArchiveOptions)
    (entries : List PreservedArchiveEntry) (rawFolders : List RawFolderBlock) : WriterM Unit := do
  ofExcept (validateRawFolderUpdate source entries rawFolders)
  writePreservedArchive outside options entries rawFolders

end

end Write

end R7z
