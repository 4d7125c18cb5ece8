import R7z.FileStreams
import R7z.Headers
import R7z.MethodNames
import R7z.Wildcard

/-! The listing of an archive: one row for each entry, in the order of the header. -/

namespace R7z

inductive ListingEntryKind where
  | file
  | directory
  | symlink
  | anti
deriving DecidableEq, Repr

structure ArchiveListingEntry where
  index : Nat
  path : String
  kind : ListingEntryKind
  size : Option Nat
  packedSize : Option Nat
  modified : Option SystemTime
  attributes : Option UInt32
  crc : Option UInt32
  encrypted : Bool
  methods : List String
  block : Option Nat
deriving DecidableEq, Repr

structure ArchiveListing where
  archiveType : String
  physicalSize : Option Nat
  headersSize : Option Nat
  methods : List String
  solid : Bool
  blocks : Nat
  entries : List ArchiveListingEntry
deriving DecidableEq, Repr

def EntryKind.listingKind {S : Type} : EntryKind S → ListingEntryKind
  | .file _ | .emptyFile => .file
  | .symlink _ | .emptySymlink => .symlink
  | .directory => .directory
  | .anti => .anti

def FolderLayout.packedSize (folder : FolderLayout) : Nat :=
  (folder.streams.sizes.map UInt64.toNat).sum

def entryPath (files : Option FilesInfo) (index : Nat) : String :=
  match files.bind fun files => (files.nameSlices[index]?).join with
  | none => "unknown-" ++ toString index
  | some bytes => displayName bytes

/-- 100 ns ticks since 1601 as a time; there is none for times before the Unix epoch. -/
def filetimeToSystemTime (filetime : UInt64) : Option SystemTime :=
  let secs := filetime.toNat / 10000000
  let nanos := filetime.toNat % 10000000 * 100
  if secs < 11644473600 then none
  else some { nanos := ((secs - 11644473600) * 1000000000 + nanos : Nat) }

/-- The row of an entry. The packed size of a folder is listed with its first entry. -/
def listingEntry (files : Option FilesInfo) (file : FileStream) : ArchiveListingEntry :=
  let row : ArchiveListingEntry :=
    { index := file.index
      path := entryPath files file.index
      kind := file.kind.listingKind
      size := none
      packedSize := none
      modified := (files.bind fun files => (files.mtimes[file.index]?).join).bind filetimeToSystemTime
      attributes := files.bind fun files => (files.attributes[file.index]?).join
      crc := none
      encrypted := false
      methods := []
      block := none }
  match file.kind with
  | .file location | .symlink location =>
    { row with size := some (location.stream.stop - location.stream.start)
               packedSize := if location.streamIndex = 0 then some location.folder.packedSize else none
               crc := location.stream.digest
               methods := folderMethodNames location.folder.folder.coders
               encrypted := folderIsEncrypted location.folder.folder.coders
               block := some location.folderIndex }
  | .emptyFile | .emptySymlink => { row with size := some 0, crc := some 0 }
  | .directory => { row with size := some 0 }
  | .anti => row

def packTotal (streams : Option StreamInfo) : Except R7zError Nat :=
  match streams.bind StreamInfo.packInfo with
  | none => .ok 0
  | some packInfo => sumSizes packInfo.packSize 0

def archiveMethods (streams : Option StreamInfo) : Except R7zError (List (List CoderInfo)) :=
  match streams.bind StreamInfo.unpackInfo with
  | none => .ok []
  | some unpack => (List.range unpack.numFoldersUsize).mapM fun index => do
    let folder ← unpack.parseFolder index
    return folder.coders

def archiveIsSolid (streams : Option StreamInfo) : Bool :=
  (streams.bind StreamInfo.substreamInfo).any fun substreams =>
    substreams.numUnpackStreamsPerFolder.any (1 < ·)

structure ListedArchive where
  streams : Option StreamInfo
  packTotal : Nat
  methods : List String
  files : Option FilesInfo
  fileStreams : FileStreams

def Header.listed (header : Header) : Except R7zError ListedArchive := do
  let streams ← header.tryStreamsInfo
  let total ← packTotal streams
  let coders ← archiveMethods streams
  let files ← header.tryFilesInfo
  let fileStreams ← FileStreams.new files header.numFiles.toNat streams
  return { streams, packTotal := total, methods := archiveMethodNames coders.flatten, files, fileStreams }

def ListedArchive.rows (listed : ListedArchive) : Except R7zError (List ArchiveListingEntry) :=
  (listed.fileStreams.mapAll fun file => .ok (listingEntry listed.files file)).mapM id

def ListedArchive.listing (listed : ListedArchive) (physicalSize : Option Nat)
    (entries : List ArchiveListingEntry) : ArchiveListing :=
  { archiveType := "7z"
    physicalSize
    headersSize := physicalSize.bind fun size =>
      if listed.packTotal ≤ size then some (size - listed.packTotal) else none
    methods := listed.methods
    solid := archiveIsSolid listed.streams
    blocks := ((listed.streams.bind StreamInfo.unpackInfo).map UnpackInfo.numFoldersUsize).getD 0
    entries }

def Header.listing (header : Header) (physicalSize : Option Nat) : Except R7zError ArchiveListing := do
  let listed ← header.listed
  let entries ← listed.rows
  return listed.listing physicalSize entries

end R7z
