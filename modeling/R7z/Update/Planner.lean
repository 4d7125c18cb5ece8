import R7z.EntryNames
import R7z.Update.Staging
import R7z.Wildcard
import R7z.Write.Header
import R7z.Decode.ActiveFolder

/-! The plan of an update: which entries of the source are kept, and how. A folder that is kept as a whole
is copied; what is kept of other folders is decoded, to be encoded again. -/

namespace R7z

open Wire

/-! Folders that are copied -/

def ArchiveSource.readRangeToVec (source : ArchiveSource) (start size limit : ℕ) : Except R7zError (List UInt8) :=
  if limit < size then .error (.limitExceeded "metadata")
  else if size = 0 then .ok []
  else if source.bytes.length < start + size then .error .parse
  else
    match source.fails start size with
    | some e => .error e
    | none => .ok ((source.bytes.drop start).take size)

/-- The range of a packed stream; with a checksum it is read and checked. -/
def PackedSource.range (packs : PackedSource) (crc32 : List UInt8 → UInt32) (source : ArchiveSource)
    (stream : PackedStream) : Except R7zError (ℕ × ℕ) :=
  let start := packs.start.toNat + stream.start
  let size := stream.stop - stream.start
  if 2 ^ 64 ≤ start + size ∨ source.bytes.length < start + size then .error .parse
  else
    match stream.crc with
    | none => .ok (start, size)
    | some expected => do
      let bytes ← source.readRangeToVec start size size
      if crc32 bytes = expected then .ok (start, size) else .error .crc

def MAX_BUFFERED_PACKED_FOLDER_BYTES : ℕ := 512 * 1024 * 1024

def ensurePackedFolderBufferLimit (packSizes : List ℕ) : Except R7zError Unit :=
  if 2 ^ 64 ≤ packSizes.sum then .error .parse
  else if MAX_BUFFERED_PACKED_FOLDER_BYTES < packSizes.sum then
    .error (.resourceLimitExceeded "packed folder buffers" (UInt64.ofNat MAX_BUFFERED_PACKED_FOLDER_BYTES))
  else .ok ()

def FolderLayouts.nth : ℕ → FolderLayouts → Option (Except R7zError FolderLayout)
  | 0, layouts => layouts.next.1
  | n + 1, layouts =>
    match layouts.next with
    | (none, _) => none
    | (some _, layouts) => nth n layouts

/-- `raw_folder`: the packed data and the metadata of a folder, without decoding it. -/
def Archive.rawFolder (archive : Archive) (crc32 : List UInt8 → UInt32) (folderIndex : ℕ) :
    Except R7zError RawFolderBlock := do
  let streams ← orParseError (← archive.header.tryStreamsInfo)
  let (pack, unpackInfo) ← streams.packedFolders
  let folders ← FolderLayouts.forStreams streams
  let packs ← PackedSource.new (UInt64.ofNat archive.baseOffset) pack.packPos
  let folder ← (← orParseError (folders.nth folderIndex))
  let packSizes := folder.streams.iter.map fun stream => stream.stop - stream.start
  ensurePackedFolderBufferLimit packSizes
  let packedStreams ← folder.streams.iter.mapM fun stream => do
    let (start, size) ← packs.range crc32 archive.source stream
    archive.source.readRangeToVec start size MAX_BUFFERED_PACKED_FOLDER_BYTES
  let folderInfo ← unpackInfo.folderBytes folderIndex
  return { folderInfo := folderInfo.bytes, packedStreams, packSizes := packSizes.map UInt64.ofNat
           coderUnpackSizes := folder.coderSizes, folderCrc := folder.crc
           handle := { archiveIdentity := archive.identity, index := folderIndex } }

/-! Entries of the source -/

def Entry.display (entry : Entry) : String :=
  (entry.name.map displayName).getD ("unknown-" ++ toString entry.index)

def NamedEntries.collect : ℕ → NamedEntries → List Entry
  | 0, _ => []
  | turns + 1, entries =>
    match entries.nextEntry with
    | (none, _) => []
    | (some entry, rest) => entry :: collect turns rest

def Archive.entries (archive : Archive) : List Entry :=
  let count := archive.header.numFiles.toNat
  (NamedEntries.new archive.header.filesInfo count).collect count

namespace Write

def entryMetaFromArchive (files : FilesInfo) (index : ℕ) : EntryMeta where
  ctime := (files.ctimes[index]?).join.bind filetimeToSystemTime
  atime := (files.atimes[index]?).join.bind filetimeToSystemTime
  mtime := (files.mtimes[index]?).join.bind filetimeToSystemTime
  attributes := (files.attributes[index]?).join
  startPos := (files.startPositions[index]?).join

def preservedEntryKind : ListingEntryKind → EntryKind
  | .anti => .Anti
  | .directory => .Directory
  | .file | .symlink => .File

/-! New entries -/

inductive PendingKind where
  | File (file : Except R7zError Reader) (size : UInt64)
  | EmptyFile
  | Directory
  | Symlink (target : String)

structure PendingEntry where
  name : String
  kind : PendingKind
  metadata : EntryMeta

def PendingEntry.toPreserved (entry : PendingEntry) : PreservedArchiveEntry :=
  let (kind, stream) : EntryKind × PreservedEntryStream :=
    match entry.kind with
    | .File file size => (.File, .Path file size)
    | .EmptyFile => (.File, .None)
    | .Directory => (.Directory, .None)
    | .Symlink target => (.File, .Data target.toUTF8.toList)
  { name := entry.name, rawName := none, kind, metadata := entry.metadata, stream }

/-! The plan -/

inductive RetainedEntryAction where
  | Drop
  | NoStream
  | CopyRaw (folder : ℕ)
  | Decode
deriving DecidableEq, Repr

inductive PlanError where
  | wouldDecode (name : String) (error : R7zError)
  | r7z (error : R7zError)
deriving DecidableEq, Repr

def addToFolder (folder index : ℕ) : List (ℕ × List ℕ) → List (ℕ × List ℕ)
  | [] => [(folder, [index])]
  | (other, indices) :: table =>
    if folder < other then (folder, [index]) :: (other, indices) :: table
    else if folder = other then (other, indices ++ [index]) :: table
    else (other, indices) :: addToFolder folder index table

section
variable (retained : ℕ → Bool)

def retainRow (plan : List RetainedEntryAction × List (ℕ × List ℕ)) (row : ArchiveListingEntry) :
    List RetainedEntryAction × List (ℕ × List ℕ) :=
  match row.block with
  | some folder => (plan.1, addToFolder folder row.index plan.2)
  | none => if retained row.index then (plan.1.set row.index .NoStream, plan.2) else plan

def retainFolder (actions : List RetainedEntryAction) (folder : ℕ × List ℕ) : List RetainedEntryAction :=
  let retainedCount := folder.2.countP retained
  if retainedCount = folder.2.length then
    folder.2.foldl (fun actions index => actions.set index (.CopyRaw folder.1)) actions
  else if 0 < retainedCount then
    (folder.2.filter retained).foldl (fun actions index => actions.set index .Decode) actions
  else actions

def retainedActions (rows : List ArchiveListingEntry) (count : ℕ) : List RetainedEntryAction :=
  let plan := rows.foldl (retainRow retained) (List.replicate count .Drop, [])
  plan.2.foldl (retainFolder retained) plan.1

end

def copiedFolders (actions : List RetainedEntryAction) : List ℕ :=
  (actions.filterMap fun
    | .CopyRaw folder => some folder
    | .Drop | .NoStream | .Decode => none).dedup.insertionSort (· ≤ ·)

def preservedRawFolders (archive : Archive) (crc32 : List UInt8 → UInt32)
    (actions : List RetainedEntryAction) : Except R7zError (List RawFolderBlock) :=
  (copiedFolders actions).mapM (archive.rawFolder crc32)

def preservedStream (rawFolders : List RawFolderBlock) (extract : ℕ → Except R7zError (List UInt8))
    (name : String) (row : ArchiveListingEntry) :
    RetainedEntryAction → Except PlanError (Option PreservedEntryStream)
  | .Drop => .ok none
  | .NoStream => .ok (some .None)
  | .CopyRaw folder =>
    match rawById rawFolders folder, row.size with
    | some raw, some size => .ok (some (.Raw raw.handle row.index size row.crc))
    | _, _ => .error (.r7z .parse)
  | .Decode =>
    -- the folder is not kept whole, so what is kept of it is decoded
    match extract row.index with
    | .ok data => .ok (some (.Data data))
    | .error e =>
      match e with
      | .unsupportedCodec _ | .passwordRequired | .decompression | .crc => .error (.wouldDecode name e)
      | e => .error (.r7z e)

def preservedRows (files : FilesInfo) (entries : List Entry) (rawFolders : List RawFolderBlock)
    (extract : ℕ → Except R7zError (List UInt8)) :
    List (ArchiveListingEntry × RetainedEntryAction) → Except PlanError (List PreservedArchiveEntry)
  | [] => .ok []
  | (row, action) :: rows =>
    match entries[row.index]? with
    | none => .error (.r7z .parse)
    | some entry => do
      match ← preservedStream rawFolders extract entry.display row action with
      | none => preservedRows files entries rawFolders extract rows
      | some stream => do
        let rest ← preservedRows files entries rawFolders extract rows
        return { name := entry.display, rawName := entry.name.bind RawEntryName.fromUtf16le
                 kind := preservedEntryKind row.kind, metadata := entryMetaFromArchive files row.index
                 stream } :: rest

/-- The entries of the source that are not dropped. -/
def retains (entries : List Entry) (shouldDrop : Entry → Bool) (index : ℕ) : Bool :=
  ((entries[index]?).map fun entry => !shouldDrop entry).getD false

def inPlan {α : Type} : Except R7zError α → Except PlanError α
  | .ok a => .ok a
  | .error e => .error (.r7z e)

/-- `preserved_rewrite_entries`: the rows of an update that drops some entries and adds others, and the
folders that are copied for it. -/
def preservedRewriteEntries (archive : Archive) (crc32 : List UInt8 → UInt32)
    (extract : ℕ → Except R7zError (List UInt8)) (shouldDrop : Entry → Bool) (appendEntries : List PendingEntry) :
    Except PlanError (List PreservedArchiveEntry × List RawFolderBlock) :=
  match archive.header.filesInfo with
  | none => .ok (appendEntries.map PendingEntry.toPreserved, [])
  | some files => do
    let listing ← inPlan (archive.header.listing (some archive.source.bytes.length))
    let entries := archive.entries
    let actions := retainedActions (retains entries shouldDrop) listing.entries entries.length
    let rawFolders ← inPlan (preservedRawFolders archive crc32 actions)
    let rows ← preservedRows files entries rawFolders extract (listing.entries.zip actions)
    return (rows ++ appendEntries.map PendingEntry.toPreserved, rawFolders)

end Write

end R7z
