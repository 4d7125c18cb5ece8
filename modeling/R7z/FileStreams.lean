import R7z.Effect.Machine
import R7z.FilesInfo
import R7z.FolderTables

/-! The entries of an archive and the substreams that hold their data. Two sequences are walked
together, the entries and the substreams of the folders, and neither is written out as a table. -/

namespace R7z

open Effect Effect.Machine

namespace EntryKind

variable {S T σ ε : Type}

def hasStream : EntryKind S → Bool
  | .file _ | .symlink _ => true
  | _ => false

def stream? : EntryKind S → Option S
  | .file stream | .symlink stream => some stream
  | _ => none

def bind (kind : EntryKind S) (stream : S → Machine σ ε T) : Machine σ ε (EntryKind T) :=
  match kind with
  | .file input => do
    let output ← stream input
    pure (.file output)
  | .symlink input => do
    let output ← stream input
    pure (.symlink output)
  | .emptyFile => pure .emptyFile
  | .emptySymlink => pure .emptySymlink
  | .directory => pure .directory
  | .anti => pure .anti

end EntryKind

/-- The entries that are still to come; names and times are read beside them. -/
structure Entries where
  files : Option FilesInfo
  next : Nat
  count : Nat
deriving DecidableEq

namespace Entries

def new (files : Option FilesInfo) (count : Nat) : Entries := { files, next := 0, count }

def kind (entries : Entries) (i : Nat) : EntryKind Unit :=
  match entries.files with
  | none => .file ()
  | some files => files.entryKind i

def owns (entries : Entries) (i : Nat) : Bool := (entries.kind i).hasStream

def streamsIn (entries : Entries) (start stop : Nat) : Nat :=
  (List.range' start (stop - start)).countP entries.owns

def streamCount (entries : Entries) : Nat := entries.streamsIn entries.next entries.count

def len (entries : Entries) : Nat := entries.count - entries.next

def nth (n : Nat) (entries : Entries) : Option (Nat × EntryKind Unit) × Entries :=
  if entries.next + n < entries.count then
    (some (entries.next + n, entries.kind (entries.next + n)), { entries with next := entries.next + n + 1 })
  else (none, { entries with next := entries.count })

def skip (n : Nat) (entries : Entries) : Nat × Entries :=
  let stop := max entries.next (min (entries.next + n) entries.count)
  (entries.streamsIn entries.next stop, { entries with next := stop })

end Entries

structure StreamLocation where
  folderIndex : Nat
  streamIndex : Nat
  folder : FolderLayout
  stream : Substream
deriving DecidableEq, Repr

/-- A folder with its substreams that are still to come, and the number of the next one. -/
structure FolderStreams where
  index : Nat
  folder : FolderLayout
  position : Nat
  streams : Substreams
deriving DecidableEq, Repr

/-- The folders that are still to come, numbered, and the one whose substreams are being handed out. -/
structure StreamLocations where
  folders : Option (Nat × FolderLayouts)
  current : Option FolderStreams
deriving DecidableEq, Repr

def Substreams.nth : Nat → Substreams → Option Substream × Substreams
  | 0, streams =>
    match streams.next with
    | none => (none, streams)
    | some (stream, streams) => (some stream, streams)
  | n + 1, streams =>
    match streams.next with
    | none => (none, streams)
    | some (_, streams) => nth n streams

namespace StreamLocations

def nextFolder : Option (Nat × FolderLayouts) →
    Option (Nat × Except R7zError FolderLayout) × Option (Nat × FolderLayouts)
  | none => (none, none)
  | some (index, layouts) =>
    match layouts.next with
    | (none, layouts) => (none, some (index, layouts))
    | (some folder, layouts) => (some (index, folder), some (index + 1, layouts))

def turns (folders : Option (Nat × FolderLayouts)) : Nat :=
  match folders with
  | none => 0
  | some (_, layouts) => layouts.turns

def openFolder (index : Nat) (folder : FolderLayout) : FolderStreams :=
  { index, folder, position := 0, streams := folder.substreams }

/-- The first folder that reaches stream `n`, counted over the folders to come, and what is left of
`n` there. -/
def seek : Nat → Nat → Option (Nat × FolderLayouts) →
    Except R7zError (Option (FolderStreams × Nat)) × Option (Nat × FolderLayouts)
  | 0, _, folders => (.ok none, folders)
  | turns + 1, n, folders =>
    match nextFolder folders with
    | (none, folders) => (.ok none, folders)
    | (some (_, .error e), folders) => (.error e, folders)
    | (some (index, .ok folder), folders) =>
      if n < folder.substreams.remaining then (.ok (some (openFolder index folder, n)), folders)
      else seek turns (n - folder.substreams.remaining) folders

def locate (n : Nat) (locations : StreamLocations) :
    Except R7zError (Option (FolderStreams × Nat)) × Option (Nat × FolderLayouts) :=
  match locations.current with
  | none => seek (turns locations.folders) n locations.folders
  | some folder =>
    if n < folder.streams.remaining then (.ok (some (folder, n)), locations.folders)
    else seek (turns locations.folders) (n - folder.streams.remaining) locations.folders

def nth (n : Nat) : Machine StreamLocations R7zError StreamLocation := fun locations =>
  match locations.locate n with
  | (.error e, folders) => (.error e, { folders, current := none })
  | (.ok none, folders) => (.error .parse, { folders, current := none })
  | (.ok (some (folder, n)), folders) =>
    match folder.streams.nth n with
    | (none, streams) => (.error .parse, { folders, current := some { folder with streams } })
    | (some stream, streams) =>
      (.ok { folderIndex := folder.index, streamIndex := folder.position + n, folder := folder.folder, stream },
        { folders, current := some { folder with streams, position := folder.position + n + 1 } })

def advanceBy (count : Nat) : Machine StreamLocations R7zError Unit :=
  match count with
  | 0 => pure ()
  | n + 1 => do
    let _ ← nth n
    pure ()

def finishFolders : Nat → Option (Nat × FolderLayouts) →
    Except R7zError Unit × Option (Nat × FolderLayouts)
  | 0, folders => (.ok (), folders)
  | turns + 1, folders =>
    match nextFolder folders with
    | (none, folders) => (.ok (), folders)
    | (some (_, .error e), folders) => (.error e, folders)
    | (some (_, .ok folder), folders) =>
      match folder.substreams.next with
      | some _ => (.error .parse, folders)
      | none => finishFolders turns folders

def finish : Machine StreamLocations R7zError Unit := fun locations =>
  if (locations.current.map fun folder => folder.streams.remaining).any (· ≠ 0) then
    (.error .parse, { locations with current := none })
  else
    let (result, folders) := finishFolders (turns locations.folders) locations.folders
    (result, { folders, current := none })

end StreamLocations

structure FileStream where
  index : Nat
  kind : EntryKind StreamLocation
deriving DecidableEq

structure FileStreams where
  entries : Entries
  streams : StreamLocations
  packPos : UInt64
deriving DecidableEq

def StreamInfo.layouts? (streams : Option StreamInfo) : Except R7zError (Option FolderLayouts) :=
  match streams with
  | none => .ok none
  | some streams =>
    if streams.unpackInfo.isSome then do
      let layouts ← FolderLayouts.forStreams streams
      return some layouts
    else .ok none

namespace FileStreams

def new (files : Option FilesInfo) (numFiles : Nat) (streams : Option StreamInfo) :
    Except R7zError FileStreams := do
  let entries := Entries.new files numFiles
  let folders ← StreamInfo.layouts? streams
  if (folders.map FolderLayouts.streamCount).getD 0 ≠ entries.streamCount then .error .parse
  else
    return { entries
             streams := { folders := folders.map fun layouts => (0, layouts), current := none }
             packPos := (folders.map fun layouts => layouts.plans.packInfo.packPos).getD 0 }

def len (files : FileStreams) : Nat := files.entries.len

def onStreams {α : Type} (m : Machine StreamLocations R7zError α) : Machine FileStreams R7zError α :=
  focus FileStreams.streams (fun streams files => { files with streams }) m

def takeEntry (n : Nat) : Machine FileStreams R7zError (Option (Nat × EntryKind Unit)) := fun files =>
  (.ok (files.entries.nth n).1, { files with entries := (files.entries.nth n).2 })

def skipEntries (n : Nat) : Machine FileStreams R7zError Nat := fun files =>
  (.ok (files.entries.skip n).1, { files with entries := (files.entries.skip n).2 })

/-- The next entry and, when it owns one, its stream; at the end the folder tables are checked. -/
def next : Machine FileStreams R7zError (Option FileStream) := do
  match ← takeEntry 0 with
  | some (index, kind) =>
    let kind ← kind.bind fun _ => onStreams (StreamLocations.nth 0)
    pure (some { index, kind })
  | none =>
    onStreams StreamLocations.finish
    pure none

def nth (n : Nat) : Machine FileStreams R7zError (Option FileStream) := do
  let skippedStreams ← skipEntries n
  onStreams (StreamLocations.advanceBy skippedStreams)
  next

def select {T : Type} (map : FileStream → Except R7zError T) (index : Nat) :
    Machine FileStreams R7zError T := do
  let files ← get
  if index < files.entries.next then Machine.fail .parse
  else
    match ← nth (index - files.entries.next) with
    | none => Machine.fail .parse
    | some file => ofExcept (map file)

def mapSelected {T : Type} (map : FileStream → Except R7zError T) (indices : List Nat)
    (files : FileStreams) : List (Except R7zError T) :=
  (runAll (select map) indices files).1

def mapRest {T : Type} (map : FileStream → Except R7zError T) :
    Nat → FileStreams → List (Except R7zError T)
  | 0, _ => []
  | turns + 1, files =>
    match next files with
    | (.ok (some file), files) => map file :: mapRest map turns files
    | (.ok none, _) => []
    | (.error e, _) => [.error e]

/-- One result for each entry, up to an error of the folder tables; they are checked at the end. -/
def mapAll {T : Type} (map : FileStream → Except R7zError T) (files : FileStreams) :
    List (Except R7zError T) :=
  mapRest map (files.len + 1) files

end FileStreams

inductive EntrySelection where
  | empty
  | all (start stop : Nat)
  | selected (indices : List Nat)
deriving DecidableEq, Repr

namespace EntrySelection

def sorted (indices : List Nat) : List Nat :=
  if indices.Pairwise (· ≤ ·) then indices else indices.mergeSort

def hasDuplicate (sorted : List Nat) : Bool :=
  (sorted.zip sorted.tail).any fun pair => pair.1 = pair.2

def new (indices : Option (List Nat)) (count : Nat) : Except R7zError EntrySelection :=
  match indices with
  | none => .ok (.all 0 count)
  | some [] => .ok .empty
  | some indices =>
    if indices.any (count ≤ ·) then .error (.invalidOptions "selected entry index out of bounds")
    else if hasDuplicate (sorted indices) then
      .error (.invalidOptions "duplicate selected entry index")
    else .ok (.selected (sorted indices))

def indices : EntrySelection → List Nat
  | empty => []
  | all start stop => List.range' start (stop - start)
  | selected indices => indices

end EntrySelection

end R7z
