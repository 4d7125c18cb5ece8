import R7z.HeaderRoundTrip
import R7z.ListingRows

/-! What a header that was written is listed as: one row for each entry, and the rows with data in the order
of the folders that hold them. -/

namespace R7z

open Wire Wire.Parser Write

/-! Entries -/

def writtenKind (entry : WriteEntry) : R7z.EntryKind Unit :=
  match entry.stream.hasStream, entry.kind, FilesInfo.hasSymlinkMode entry.metadata.attributes with
  | true, _, true => .symlink ()
  | true, _, false => .file ()
  | false, .Anti, _ => .anti
  | false, _, true => .emptySymlink
  | false, .File, false => .emptyFile
  | false, .Directory, false => .directory

def streamIndices (entries : List WriteEntry) : List ℕ :=
  (entries.zipIdx.filter fun (entry, _) => entry.stream.hasStream).map Prod.snd

section
variable {entries : List WriteEntry} {i : ℕ} {entry : WriteEntry}

end

/-! Streams -/

structure StreamRow where
  index : ℕ
  size : ℕ
  packedSize : Option ℕ
  crc : Option UInt32
  encrypted : Bool
  methods : List String
  block : ℕ
deriving DecidableEq, Repr

def ArchiveListingEntry.stream? (row : ArchiveListingEntry) : Option StreamRow :=
  match row.size, row.block with
  | some size, some block =>
    some { index := row.index, size, packedSize := row.packedSize, crc := row.crc, encrypted := row.encrypted
           methods := row.methods, block }
  | _, _ => none

def StreamLocation.row (location : StreamLocation) (index : ℕ) : StreamRow :=
  { index
    size := location.stream.stop - location.stream.start
    packedSize := if location.streamIndex = 0 then some location.folder.packedSize else none
    crc := location.stream.digest
    encrypted := folderIsEncrypted location.folder.folder.coders
    methods := folderMethodNames location.folder.folder.coders
    block := location.folderIndex }

def Write.CompletedFolder.coders (folder : CompletedFolder) : List CoderInfo :=
  match Folder.parse ⟨0, folder.coderInfo⟩ with
  | .ok (parsed, _) => parsed.coders
  | .error _ => []

def Write.CompletedFolder.rows (folder : CompletedFolder) (block : ℕ) : List StreamRow :=
  (folder.fileIndices.zip (folder.fileSizes.zip folder.fileCrcs)).zipIdx.map fun ((index, size, crc), i) =>
    { index
      size := size.toNat
      packedSize := if i = 0 then some (folder.packSizes.map UInt64.toNat).sum else none
      crc
      encrypted := folderIsEncrypted folder.coders
      methods := folderMethodNames folder.coders
      block }

section
variable {entries : List WriteEntry} {folders : List CompletedFolder} {wired : List WiredFolder}

section
variable {listed : ListedArchive} {laidOut : List FolderLayout} {files : List FileStream}
  (hentries : listed.fileStreams.entries = Entries.new (some (writtenFiles entries)) entries.length)
  (hmaps : listed.fileStreams.MapsInOrder (folderSubstreams laidOut) files)
include hentries hmaps

end

end

end R7z
