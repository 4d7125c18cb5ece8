import R7z.Write.Writer

/-! The buffered builder: entries are collected first, their folders planned, and then written through
the streaming writer. -/

namespace R7z.Write

open Effect Effect.Machine

/-- The options of a builder: their solid mode, and what preparing them gives. -/
structure ArchiveOptions where
  solid : SolidMode
  prepared : Except R7zError PreparedArchiveOptions
  solid_eq : ∀ p, prepared = .ok p → p.solid = solid

def WriteEntryStream.bufferedData : WriteEntryStream → Option (List UInt8)
  | Buffered data => some data
  | Empty => none
  | Streaming => none

def WriteFolderId.next (id : WriteFolderId) : Except R7zError WriteFolderId :=
  if id + 1 < usizeLimit then .ok (id + 1) else .error .parse

def bufferedSize (entry : WriteEntry) : Except R7zError UInt64 :=
  match entry.stream.bufferedData with
  | some data => .ok (UInt64.ofNat data.length)
  | none => .error .parse

def nextFolderIf (bump : Bool) (folderId : WriteFolderId) (progress : FolderProgress) :
    Except R7zError (WriteFolderId × FolderProgress) :=
  if bump then do
    let folderId ← WriteFolderId.next folderId
    return (folderId, FolderProgress.default)
  else return (folderId, progress)

def planFolder (solid : SolidMode) (folderId : WriteFolderId) (progress : FolderProgress)
    (entry : WriteEntry) : Except R7zError (WriteFolderId × FolderProgress) :=
  if ¬entry.stream.hasStream then
    nextFolderIf (decide (solid = .NonSolid) && decide (progress.files > 0)) folderId progress
  else do
    let size ← bufferedSize entry
    let exceeds ← progress.wouldExceed solid size
    let (folderId, progress) ← nextFolderIf exceeds folderId progress
    let progress ← progress.record size
    return (folderId, progress)

def planFolders (solid : SolidMode) (folderId : WriteFolderId) (progress : FolderProgress) :
    List WriteEntry → Except R7zError (List WriteEntry)
  | [] => .ok []
  | entry :: entries => do
    let (folderId, progress) ← planFolder solid folderId progress entry
    let entries ← planFolders solid folderId progress entries
    return { entry with folderId } :: entries

def entriesWithSolidFolders (entries : List WriteEntry) (solid : SolidMode) :
    Except R7zError (List WriteEntry) := planFolders solid 0 FolderProgress.default entries

def folderSizes (entries : List WriteEntry) : Except R7zError (WriteFolderId → UInt64) :=
  entries.foldlM (fun sizes entry =>
    if entry.stream.hasStream then do
      let size ← bufferedSize entry
      let folderSize ← checkedAddU64 (sizes entry.folderId) size
      return Function.update sizes entry.folderId folderSize
    else return sizes) fun _ => 0

def writeEntryFromArchiveEntry (entry : ArchiveEntry) (data : Option (List UInt8))
    (folderId : WriteFolderId) : Except R7zError WriteEntry :=
  let hasData := data.any fun d => !d.isEmpty
  if entry.kind ≠ .File ∧ hasData then
    .error (.invalidOptions "only file entries can have stream data")
  else
    .ok { name := entry.name, rawName := none, kind := entry.kind, metadata := entry.metadata,
          stream := if entry.kind = .File ∧ hasData then .Buffered (data.getD []) else .Empty,
          folderId }

section
variable (outside : Outside)

def appendBuilderEntry (entry : WriteEntry) (folderSize : UInt64) : WriterM Unit := do
  match entry.stream with
  | .Buffered data => do
    let w ← get
    ArchiveWriter.appendStreaming outside entry.name (ArchiveWriter.sliceReader w.prepared data)
      entry.metadata (.Preplanned folderSize)
  | .Empty =>
    ArchiveWriter.appendEmptyEntry outside
      { name := entry.name, kind := entry.kind, metadata := entry.metadata }
  | .Streaming => fail .parse

def advanceTo (folderId : WriteFolderId) : WriterM Unit := do
  let next ← ArchiveWriter.nextFolderId
  if folderId < next then fail .parse
  else if folderId = next then pure ()
  else do
    ArchiveWriter.newFolder outside
    let next ← ArchiveWriter.nextFolderId
    if folderId ≠ next then fail .parse else pure ()

def writePlannedEntry (sizes : WriteFolderId → UInt64) (entry : WriteEntry) : WriterM Unit := do
  advanceTo outside entry.folderId
  appendBuilderEntry outside entry (sizes entry.folderId)

end

structure ArchiveBuilder where
  entries : List WriteEntry
  options : ArchiveOptions

namespace ArchiveBuilder

def new (options : ArchiveOptions) : ArchiveBuilder := { entries := [], options }

def push (builder : ArchiveBuilder) (name : String) (kind : EntryKind) (metadata : EntryMeta)
    (stream : WriteEntryStream) : ArchiveBuilder :=
  { builder with
    entries := builder.entries ++ [{ name, rawName := none, kind, metadata, stream, folderId := 0 }] }

def bufferedOrEmpty (data : List UInt8) : WriteEntryStream :=
  if data.isEmpty then .Empty else .Buffered data

def addFile (builder : ArchiveBuilder) (name : String) (data : List UInt8) : ArchiveBuilder :=
  builder.push name .File EntryMeta.default (bufferedOrEmpty data)

def addFileEntry (builder : ArchiveBuilder) (name : String) (data : List UInt8)
    (metadata : EntryMeta) : ArchiveBuilder := builder.push name .File metadata (bufferedOrEmpty data)

def addSymlink (builder : ArchiveBuilder) (name target : String) (metadata : EntryMeta) :
    ArchiveBuilder :=
  builder.push name .File metadata.withSymlinkDefault (.Buffered target.toUTF8.toList)

def addEntry (builder : ArchiveBuilder) (entry : ArchiveEntry) (data : Option (List UInt8)) :
    Except R7zError ArchiveBuilder := do
  let entry ← writeEntryFromArchiveEntry entry data 0
  return { builder with entries := builder.entries ++ [entry] }

def addEmptyFile (builder : ArchiveBuilder) (name : String) (metadata : EntryMeta) : ArchiveBuilder :=
  builder.push name .File metadata .Empty

def addDirectory (builder : ArchiveBuilder) (name : String) (metadata : EntryMeta) : ArchiveBuilder :=
  builder.push name .Directory metadata .Empty

def addAntiItem (builder : ArchiveBuilder) (name : String) (metadata : EntryMeta) : ArchiveBuilder :=
  builder.push name .Anti metadata .Empty

/-- The writer an archive was built with, after its last write. -/
def build (outside : Outside) (builder : ArchiveBuilder) : Except R7zError ArchiveWriter := do
  let entries ← entriesWithSolidFolders builder.entries builder.options.solid
  let sizes ← folderSizes entries
  let prepared ← builder.options.prepared
  let writeEntries : WriterM Unit := do
    forEach (writePlannedEntry outside sizes) entries
    ArchiveWriter.finish outside
  match writeEntries (ArchiveWriter.new { content := [], position := 0 } prepared) with
  | (.ok (), w) => return w
  | (.error e, _) => .error e

end ArchiveBuilder

inductive BuilderCall where
  | options (value : ArchiveOptions)
  | compression (value : ArchiveOptions)
  | addFile (name : String) (data : List UInt8)
  | addFileEntry (name : String) (data : List UInt8) (metadata : EntryMeta)
  | addSymlink (name target : String) (metadata : EntryMeta)
  | addEntry (entry : ArchiveEntry) (data : Option (List UInt8))
  | addEmptyFile (name : String) (metadata : EntryMeta)
  | addDirectory (name : String) (metadata : EntryMeta)
  | addAntiItem (name : String) (metadata : EntryMeta)

def BuilderCall.run (builder : ArchiveBuilder) : BuilderCall → Except R7zError ArchiveBuilder
  | options value => return { builder with options := value }
  | compression value => return { builder with options := value }
  | addFile name data => return builder.addFile name data
  | addFileEntry name data metadata => return builder.addFileEntry name data metadata
  | addSymlink name target metadata => return builder.addSymlink name target metadata
  | addEntry entry data => builder.addEntry entry data
  | addEmptyFile name metadata => return builder.addEmptyFile name metadata
  | addDirectory name metadata => return builder.addDirectory name metadata
  | addAntiItem name metadata => return builder.addAntiItem name metadata

def BuilderCall.name : BuilderCall → Option String
  | options _ => none
  | compression _ => none
  | addFile name _ => some name
  | addFileEntry name _ _ => some name
  | addSymlink name _ _ => some name
  | addEntry entry _ => some entry.name
  | addEmptyFile name _ => some name
  | addDirectory name _ => some name
  | addAntiItem name _ => some name

end R7z.Write
