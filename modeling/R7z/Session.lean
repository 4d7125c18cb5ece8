import R7z.Decode.ActiveFolder
import R7z.LazySections

/-! Reading the entries of an archive: a session goes forward through them and keeps the decoder of the
folder it is in; extraction and streaming go through the same decoder. -/

namespace R7z

open Effect Effect.Machine

inductive EntryContent where
  | Empty
  | Stream (location : StreamLocation)
deriving DecidableEq, Repr

structure ReadableEntry where
  index : Nat
  content : EntryContent
deriving DecidableEq, Repr

def ReadableEntry.fromFile (file : FileStream) : Option ReadableEntry :=
  match file.kind with
  | .file location | .symlink location => some { index := file.index, content := .Stream location }
  | .emptyFile | .emptySymlink => some { index := file.index, content := .Empty }
  | .directory | .anti => none

/-- The state that all ways of reading share: the folder that is open, and what was checked so far. -/
structure EntryDecoder (ω δ : Type) where
  verification : ReadVerification
  source : PackedSource
  current : Option (Nat × ActiveFolder δ)
  password : Option String
  mode : CompletionMode
  op : Operation ω

structure ArchiveReadSession (ω δ : Type) where
  files : FileStreams
  decoder : EntryDecoder ω δ
  count : Nat

section
variable {ω δ κ : Type} (env : Environment ω δ)

namespace EntryDecoder

abbrev DecoderM (ω δ : Type) := Machine (EntryDecoder ω δ) R7zError

def onOperation {α : Type} (m : OperationM ω α) : DecoderM ω δ α :=
  focus EntryDecoder.op (fun op decoder => { decoder with op }) m

def setCurrent (current : Option (Nat × ActiveFolder δ)) : DecoderM ω δ Unit :=
  modify fun decoder => { decoder with current }

def setVerification (verification : ReadVerification) : DecoderM ω δ Unit :=
  modify fun decoder => { decoder with verification }

/-- A folder that is left is finished, whether that goes well or not. -/
def complete (active : Option (Nat × ActiveFolder δ)) : DecoderM ω δ Unit :=
  match active with
  | none => pure ()
  | some (_, folder) => do
    let decoder ← get
    match ← attempt (onOperation (folder.finish env decoder.mode)) with
    | .ok verification => setVerification (decoder.verification.combine verification)
    | .error e => do
      setVerification .Incomplete
      fail e

def openFolder (previous : Option (Nat × ActiveFolder δ)) (location : StreamLocation) :
    DecoderM ω δ (ActiveFolder δ) := do
  complete env previous
  let decoder ← get
  onOperation do
    let ready ← location.folder.bind env decoder.source
    ready.start env decoder.password

def selectFolder (previous : Option (Nat × ActiveFolder δ)) (location : StreamLocation) :
    DecoderM ω δ (ActiveFolder δ) :=
  match previous with
  | some (index, active) =>
    if index = location.folderIndex then pure active else openFolder env previous location
  | none => openFolder env none location

def readStream (entry : Nat) (location : StreamLocation) (callback : Consumer κ) :
    DecoderM ω δ κ := do
  let decoder ← get
  setCurrent none
  let active ← selectFolder env decoder.current location
  let (active, result) ← onOperation do
    let active ← active.skipTo env location.streamIndex
    active.readStream env (callback.invoke env entry)
  setCurrent (some (location.folderIndex, active))
  pure result

def readEmpty (entry : Nat) (callback : Consumer κ) : DecoderM ω δ κ := onOperation fun op =>
  let (result, history) := callback.runEmpty (noteInvoked entry op.history)
  (match result with
    | .ok a => .ok a
    | .error (.io _) => .error .io
    | .error (.r7z e) => .error e, { op with history })

/-- A read; a failure is remembered. -/
def read (entry : ReadableEntry) (callback : Consumer κ) : DecoderM ω δ κ := do
  let read : DecoderM ω δ κ := do
    onOperation (check env)
    match entry.content with
    | .Empty => readEmpty entry.index callback
    | .Stream location => readStream env entry.index location callback
  onError read fun decoder => { decoder with verification := .Incomplete }

def finish : DecoderM ω δ ReadVerification := do
  let decoder ← get
  setCurrent none
  complete env decoder.current
  onOperation (check env)
  let decoder ← get
  pure decoder.verification

end EntryDecoder

/-! Sessions -/

namespace ArchiveReadSession

abbrev SessionM (ω δ : Type) := Machine (ArchiveReadSession ω δ) R7zError

def onFiles {α : Type} (m : Machine FileStreams R7zError α) : SessionM ω δ α :=
  focus ArchiveReadSession.files (fun files session => { session with files }) m

def onDecoder {α : Type} (m : EntryDecoder.DecoderM ω δ α) : SessionM ω δ α :=
  focus ArchiveReadSession.decoder (fun decoder session => { session with decoder }) m

def nextIndex (session : ArchiveReadSession ω δ) : Nat := session.count - session.files.len

def readEntry (index : Nat) (callback : Consumer κ) : SessionM ω δ κ := do
  let session ← get
  if session.nextIndex ≤ index ∧ index < session.count then do
    match ← onFiles (FileStreams.nth (index - session.nextIndex)) with
    | none => fail .parse
    | some file =>
      match ReadableEntry.fromFile file with
      | none => fail .directory
      | some entry => onDecoder (EntryDecoder.read env entry callback)
  else fail (.invalidOptions "read session requires increasing valid entry indexes")

def finishFolder : SessionM ω δ ReadVerification := onDecoder (EntryDecoder.finish env)

def finish : SessionM ω δ ReadVerification := finishFolder env

end ArchiveReadSession

structure ArchiveReadConfig where
  password : Option String
  limits : ResourceLimits
  hasControl : Bool

def EntryDecoder.new (source : PackedSource) (mode : CompletionMode) (config : ArchiveReadConfig)
    (outside : ω) : EntryDecoder ω δ :=
  { verification := .CompleteFolders, source, current := none, password := config.password, mode
    op := Operation.new (OperationBudget.new config.limits config.hasControl) outside }

structure ArchiveSections where
  files : Option FilesInfo
  streams : Option StreamInfo
  numFiles : Nat
  baseOffset : UInt64

def Header.sections (header : Header) (baseOffset : UInt64) : Except R7zError ArchiveSections := do
  let files ← header.tryFilesInfo
  let streams ← header.tryStreamsInfo
  return { files, streams, numFiles := header.numFiles.toNat, baseOffset }

def ArchiveSections.open (archive : ArchiveSections) : Except R7zError (FileStreams × PackedSource) := do
  let files ← FileStreams.new archive.files archive.numFiles archive.streams
  let source ← PackedSource.new archive.baseOffset files.packPos
  return (files, source)

def ArchiveSections.readSession (archive : ArchiveSections) (config : ArchiveReadConfig)
    (outside : ω) : Except R7zError (ArchiveReadSession ω δ) := do
  let (files, source) ← archive.open
  return { files, decoder := EntryDecoder.new source .SelectedStreams config outside
           count := archive.numFiles }

/-! Extraction -/

/-- A writer that an entry is copied to: how much it takes at once, and whether it fails. -/
structure EntryWriter where
  room : List UInt8 → Nat
  fault : List UInt8 → Option IoError

/-- The errors of a copy: those of the entry's reader are told apart from those of the writer. -/
def entryReadError : IoError → CallbackError
  | .interrupted => .io .interrupted
  | .cancelledRead => .r7z .cancelled
  | .wrapped e => .r7z e
  | _ => .r7z .decompression

/-- Copy an entry, at most 8 KiB at once, and again after an interruption: what was written. -/
def copyEntry (writer : EntryWriter) : Nat → List UInt8 → Consumer (List UInt8)
  | 0, _ => .done (.error (.io .interrupted))
  | turns + 1, written =>
    .read (min (writer.room written + 1) (8 * 1024)) fun
      | .ok bytes =>
        if bytes.isEmpty then .done (.ok written)
        else
          match writer.fault (written ++ bytes) with
          | some e => .done (.error (.io e))
          | none => copyEntry writer turns (written ++ bytes)
      | .error .interrupted => copyEntry writer turns written
      | .error e => .done (.error (entryReadError e))

/-- A single entry, in a session of its own: what was written, and the state behind it. -/
def ArchiveSections.extractToWriter (archive : ArchiveSections) (index : Nat) (writer : EntryWriter)
    (config : ArchiveReadConfig) (outside : ω) : Except R7zError (List UInt8) :=
  match ((Entries.new archive.files archive.numFiles).nth index).1 with
  | none => .error .parse
  | some (_, kind) =>
    match kind with
    | .directory | .anti => .error .directory
    | .emptyFile | .emptySymlink => .ok []
    | .file () | .symlink () => do
      let session ← archive.readSession (δ := δ) config outside
      let extract : ArchiveReadSession.SessionM ω δ (List UInt8) := do
        let written ← ArchiveReadSession.readEntry env index (copyEntry writer env.copyTurns [])
        let _ ← ArchiveReadSession.finishFolder env
        pure written
      (extract session).1

/-! Streaming -/

abbrev EntryCallback (κ : Type) := κ → ReadableEntry → Consumer κ

def EntryDecoder.readFile (callback : EntryCallback κ) (state : κ) (file : FileStream) :
    EntryDecoder.DecoderM ω δ κ :=
  match ReadableEntry.fromFile file with
  | none => pure state
  | some entry => EntryDecoder.read env entry (callback state entry)

def EntryDecoder.readFiles (callback : EntryCallback κ) : κ → List (Except R7zError FileStream) →
    EntryDecoder.DecoderM ω δ κ
  | state, [] => pure state
  | state, file :: files => do
    let file ← ofExcept file
    let state ← EntryDecoder.readFile env callback state file
    EntryDecoder.readFiles callback state files

def EntrySelection.fileStreams (selection : EntrySelection) (files : FileStreams) :
    List (Except R7zError FileStream) :=
  match selection with
  | .all _ _ => files.mapAll fun file => .ok file
  | selection => files.mapSelected (fun file => .ok file) selection.indices

def ArchiveSections.streamEntrySelection (archive : ArchiveSections) (selection : EntrySelection)
    (mode : CompletionMode) (config : ArchiveReadConfig) (callback : EntryCallback κ) (state : κ)
    (outside : ω) : Except R7zError κ × History :=
  match archive.open with
  | .error e => (.error e, History.empty)
  | .ok (files, source) =>
    let stream : EntryDecoder.DecoderM ω δ κ := do
      let state ← EntryDecoder.readFiles env callback state (selection.fileStreams files)
      let _ ← EntryDecoder.finish env
      pure state
    let (result, decoder) := stream (EntryDecoder.new source mode config outside)
    (result, decoder.op.history)

def ArchiveSections.streamFiles (archive : ArchiveSections) (indices : Option (List Nat))
    (config : ArchiveReadConfig) (callback : EntryCallback κ) (state : κ) (outside : ω) :
    Except R7zError κ × History :=
  match EntrySelection.new indices archive.numFiles with
  | .error e => (.error e, History.empty)
  | .ok .empty => (.ok state, History.empty)
  | .ok (.all start stop) =>
    archive.streamEntrySelection env (.all start stop) .WholeFolder config callback state outside
  | .ok (.selected indices) =>
    archive.streamEntrySelection env (.selected indices) .SelectedStreams config callback state outside

end

end R7z
