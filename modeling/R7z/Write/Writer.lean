import R7z.Write.Encode

/-! The streaming writer: folders are opened, filled and sealed while entries are appended, and the
header is written at the end. -/

namespace R7z.Write

open Wire Effect Effect.Machine

def checkedAdd (error : R7zError) (a b : UInt64) : Except R7zError UInt64 :=
  if a.toNat + b.toNat < 2 ^ 64 then .ok (a + b) else .error error

def checkedAddU64 (a b : UInt64) : Except R7zError UInt64 := checkedAdd .parse a b

inductive FolderPlan where
  | Automatic
  | Preplanned (folderSize : UInt64)
deriving DecidableEq, Repr

def FolderPlan.knownSize : FolderPlan → Option UInt64
  | .Automatic => none
  | .Preplanned folderSize => some folderSize

/-- What lies between an encoder and the output: a counter, and the cipher when there is a password. -/
inductive PayloadWriter where
  | Plain (count : UInt64)
  | Aes (key iv props : List UInt8) (plaintextSize : UInt64) (pieces : List (List UInt8)) (count : UInt64)
deriving DecidableEq, Repr

structure EncryptedPayload where
  plaintextSize : UInt64
  props : List UInt8
deriving DecidableEq, Repr

inductive StreamingEncoder where
  | Raw (count : UInt64) (packSizes : List UInt64) (coderInfo : List UInt8)
      (coderUnpackSizes : List UInt64) (folderCrc : Option UInt32)
  | Copy (writer : PayloadWriter)
  | Lzma2 (knownSize : Option UInt64) (chunks : List (List UInt8)) (writer : PayloadWriter)
  | Lzma (chunks : List (List UInt8)) (writer : PayloadWriter) (props : List UInt8)
  | Ppmd (order : UInt8) (memorySize : UInt32) (chunks : List (List UInt8)) (writer : PayloadWriter)
      (props : List UInt8)
  | BcjLzma2 (knownSize : Option UInt64) (chunks : List (List UInt8)) (writer : PayloadWriter)
deriving DecidableEq, Repr

structure FolderFile where
  entryIndex : WriteEntryIndex
  size : UInt64
  crc : Option UInt32
deriving DecidableEq, Repr

structure StreamingFolder where
  encoder : StreamingEncoder
  files : List FolderFile
  unpackSize : UInt64
deriving DecidableEq, Repr

structure FolderProgress where
  files : UInt64
  bytes : UInt64
deriving DecidableEq, Repr

namespace FolderProgress

def default : FolderProgress := { files := 0, bytes := 0 }

def record (progress : FolderProgress) (size : UInt64) : Except R7zError FolderProgress := do
  let files ← checkedAddU64 progress.files 1
  let bytes ← checkedAddU64 progress.bytes size
  return { files, bytes }

def wouldExceed (progress : FolderProgress) (solid : SolidMode) (size : UInt64) :
    Except R7zError Bool :=
  match solid with
  | .Solid => return false
  | .NonSolid => return decide (progress.files > 0)
  | .Limit maxFiles maxBytes => do
    let nextFiles ← checkedAddU64 progress.files 1
    let nextBytes ← checkedAddU64 progress.bytes size
    return decide (progress.files > 0) &&
      (maxFiles.any (fun limit => decide (nextFiles > limit.val)) ||
        maxBytes.any (fun limit => decide (nextBytes > limit.val)))

def reachedLimit (progress : FolderProgress) (solid : SolidMode) : Bool :=
  match solid with
  | .Solid => false
  | .NonSolid => decide (progress.files > 0)
  | .Limit maxFiles maxBytes =>
    maxFiles.any (fun limit => decide (progress.files ≥ limit.val)) ||
      maxBytes.any (fun limit => decide (progress.bytes ≥ limit.val))

end FolderProgress

inductive WriterState where
  | Ready (completed : List CompletedFolder)
  | Active (folder : StreamingFolder) (completed : List CompletedFolder) (progress : FolderProgress)
  | Failed
deriving DecidableEq, Repr

def writerFailed : R7zError :=
  .invalidOptions "archive writer cannot be reused after an I/O or encoder failure"

/-- The writer, the output behind it, and the number of calls it has made to the outside. -/
structure ArchiveWriter where
  state : WriterState
  entries : List WriteEntry
  prepared : PreparedArchiveOptions
  output : Sink
  clock : Nat
deriving DecidableEq

abbrev WriterM := Machine ArchiveWriter R7zError

/-- A source of data as its successive reads: bytes, or a failure or a cancellation. A read of
nothing, or the end of the list, is the end of the data. -/
abbrev Reader := List (Except R7zError (List UInt8))

section
variable (outside : Outside)

def nextFault : WriterM (Option Fault) := fun w =>
  (.ok (outside.fault w.clock), { w with clock := w.clock + 1 })

/-- A call that does nothing to the output: a check for cancellation, a budget, an encoder. -/
def external : WriterM Unit := do
  match ← nextFault outside with
  | none => pure ()
  | some fault => fail fault.error

def writeAll (bytes : List UInt8) : WriterM Unit := do
  if bytes.isEmpty then pure ()
  else
    match ← nextFault outside with
    | none => modify fun w => { w with output := w.output.write bytes }
    | some fault => do
      modify fun w => { w with output := w.output.write (bytes.take fault.written) }
      fail fault.error

def seek (position : Nat) : WriterM Unit := do
  external outside
  modify fun w => { w with output := w.output.seek position }

def setState (state : WriterState) : WriterM Unit := modify fun w => { w with state }

def pushEntry (entry : WriteEntry) : WriterM Unit :=
  modify fun w => { w with entries := w.entries ++ [entry] }

def randomBytes (n : Nat) : WriterM (List UInt8) := do
  external outside
  let w ← get
  pure ((List.range n).map (outside.entropy w.clock))

def makeAesMaterial (encryption : PreparedEncryption) :
    WriterM (List UInt8 × List UInt8 × List UInt8) := do
  let salt ← randomBytes outside encryption.saltLen
  let ivBytes ← randomBytes outside encryption.ivLen
  external outside
  let key := outside.deriveKey encryption.password salt encryption.numCyclesPower
  let iv := ivBytes ++ List.replicate (16 - ivBytes.length) 0
  pure (key, iv, encodeAesProperties encryption.numCyclesPower salt ivBytes)

def countedWrite (count : UInt64) (bytes : List UInt8) : WriterM UInt64 := do
  writeAll outside bytes
  ofExcept (checkedAdd .io count (UInt64.ofNat bytes.length))

namespace PayloadWriter

def new (prepared : PreparedArchiveOptions) : WriterM PayloadWriter := do
  match prepared.encryption with
  | some encryption => do
    let (key, iv, props) ← makeAesMaterial outside encryption
    pure (.Aes key iv props 0 [] 0)
  | none => pure (.Plain 0)

def write (writer : PayloadWriter) (bytes : List UInt8) : WriterM PayloadWriter :=
  match writer with
  | .Plain count => do
    let count ← countedWrite outside count bytes
    pure (.Plain count)
  | .Aes key iv props plaintextSize pieces count => do
    let plaintextSize ← ofExcept (checkedAdd .io plaintextSize (UInt64.ofNat bytes.length))
    let count ← countedWrite outside count ((outside.aes key iv).emit pieces bytes)
    pure (.Aes key iv props plaintextSize (pieces ++ [bytes]) count)

def finish (writer : PayloadWriter) : WriterM (UInt64 × Option EncryptedPayload) :=
  match writer with
  | .Plain count => pure (count, none)
  | .Aes key iv props plaintextSize pieces count => do
    let count ← countedWrite outside count ((outside.aes key iv).close pieces)
    pure (count, some { plaintextSize, props })

end PayloadWriter

namespace StreamingFolder

def encoded (knownSize : Option UInt64) (prepared : PreparedArchiveOptions) :
    WriterM StreamingFolder := do
  external outside
  let payload ← PayloadWriter.new outside prepared
  external outside
  let encoder := match prepared.codec with
    | .Copy => .Copy payload
    | .Lzma2 => .Lzma2 knownSize [] payload
    | .Lzma => .Lzma [] payload (outside.lzmaProps prepared :: toLeBytes 4 prepared.dictSize.toNat)
    | .Ppmd order memorySize =>
      .Ppmd order memorySize [] payload (order :: toLeBytes 4 memorySize.toNat)
    | .Lzma2Bcj => .BcjLzma2 knownSize [] payload
  pure { encoder, files := [], unpackSize := 0 }

def writeEncoder (prepared : PreparedArchiveOptions) (bytes : List UInt8) :
    StreamingEncoder → WriterM StreamingEncoder
  | .Raw count packSizes coderInfo coderUnpackSizes folderCrc => do
    let count ← countedWrite outside count bytes
    pure (.Raw count packSizes coderInfo coderUnpackSizes folderCrc)
  | .Copy writer => do
    let writer ← writer.write outside bytes
    pure (.Copy writer)
  | .Lzma2 knownSize chunks writer => do
    let writer ← writer.write outside ((outside.lzma2 prepared knownSize).emit chunks bytes)
    pure (.Lzma2 knownSize (chunks ++ [bytes]) writer)
  | .Lzma chunks writer props => do
    let writer ← writer.write outside ((outside.lzma prepared).emit chunks bytes)
    pure (.Lzma (chunks ++ [bytes]) writer props)
  | .Ppmd order memorySize chunks writer props => do
    let writer ← writer.write outside ((outside.ppmd order memorySize).emit chunks bytes)
    pure (.Ppmd order memorySize (chunks ++ [bytes]) writer props)
  | .BcjLzma2 knownSize chunks writer => do
    let writer ← writer.write outside ((outside.bcjLzma2 prepared knownSize).emit chunks bytes)
    pure (.BcjLzma2 knownSize (chunks ++ [bytes]) writer)

def write (prepared : PreparedArchiveOptions) (folder : StreamingFolder) (bytes : List UInt8) :
    WriterM StreamingFolder := do
  external outside
  let encoder ← writeEncoder outside prepared bytes folder.encoder
  pure { folder with encoder }

def recordStream (folder : StreamingFolder) (entryIndex : WriteEntryIndex) (size : UInt64)
    (checksum : UInt32) : Except R7zError StreamingFolder :=
  match folder.encoder with
  | .Raw .. => .error .parse
  | _ => do
    let unpackSize ← checkedAddU64 folder.unpackSize size
    return { folder with files := folder.files ++ [{ entryIndex, size, crc := some checksum }], unpackSize }

def finishPayload (writer : PayloadWriter) (coderInfo : List UInt8) (coderUnpackSizes : List UInt64)
    (specs : List CoderSpec) : WriterM (UInt64 × List UInt8 × List UInt64) := do
  let (packSize, encrypted) ← writer.finish outside
  match encrypted with
  | some encrypted =>
    pure (packSize, encodeCoderInfoAesThen specs encrypted.props,
      encrypted.plaintextSize :: coderUnpackSizes)
  | none => pure (packSize, coderInfo, coderUnpackSizes)

def closeInto (writer : PayloadWriter) (encoder : Encoder) (chunks : List (List UInt8)) :
    WriterM PayloadWriter := do
  external outside
  writer.write outside (encoder.close chunks)

def complete (folder : StreamingFolder) (prepared : PreparedArchiveOptions) :
    WriterM CompletedFolder := do
  let done (packSizes : List UInt64) (coderInfo : List UInt8) (coderUnpackSizes : List UInt64)
      (folderCrc : Option UInt32) : CompletedFolder :=
    { fileIndices := folder.files.map FolderFile.entryIndex, packSizes, coderInfo, coderUnpackSizes,
      folderCrc, fileSizes := folder.files.map FolderFile.size,
      fileCrcs := folder.files.map FolderFile.crc }
  let unpackSize := folder.unpackSize
  match folder.encoder with
  | .Raw _ packSizes coderInfo coderUnpackSizes folderCrc =>
    pure (done packSizes coderInfo coderUnpackSizes folderCrc)
  -- Copy hands its chunks on as they are: there is nothing to close
  | .Copy writer => do
    let (packSize, coderInfo, sizes) ← finishPayload outside writer encodeCoderInfoCopy [unpackSize] [.Copy]
    pure (done [packSize] coderInfo sizes none)
  | .Lzma2 knownSize chunks writer => do
    let property ← ofExcept (lzma2PropertyByte prepared)
    let writer ← closeInto outside writer (outside.lzma2 prepared knownSize) chunks
    let (packSize, coderInfo, sizes) ← finishPayload outside writer (encodeCoderInfoLzma2 property)
      [unpackSize] [.Lzma2 property]
    pure (done [packSize] coderInfo sizes none)
  | .Lzma chunks writer props => do
    let writer ← closeInto outside writer (outside.lzma prepared) chunks
    let (packSize, coderInfo, sizes) ← finishPayload outside writer (encodeCoderInfoLzma props)
      [unpackSize] [.Lzma props]
    pure (done [packSize] coderInfo sizes none)
  | .Ppmd order memorySize chunks writer props => do
    let writer ← closeInto outside writer (outside.ppmd order memorySize) chunks
    let (packSize, coderInfo, sizes) ← finishPayload outside writer (encodeCoderInfoPpmd props)
      [unpackSize] [.Ppmd props]
    pure (done [packSize] coderInfo sizes none)
  -- BCJ gives as many bytes as it takes, so both coders have the size of the folder
  | .BcjLzma2 knownSize chunks writer => do
    let writer ← closeInto outside writer (outside.bcjLzma2 prepared knownSize) chunks
    let property ← ofExcept (lzma2PropertyByte prepared)
    let (packSize, coderInfo, sizes) ← finishPayload outside writer (encodeCoderInfoBcjLzma2 property)
      [unpackSize, unpackSize] [.Lzma2 property, .Bcj]
    pure (done [packSize] coderInfo sizes none)

end StreamingFolder

namespace ArchiveWriter

def new (output : Sink) (prepared : PreparedArchiveOptions) : ArchiveWriter :=
  { state := .Ready [], entries := [], prepared, output, clock := 0 }

def nextFolderId : WriterM WriteFolderId := do
  let w ← get
  match w.state with
  | .Ready completed => pure completed.length
  | .Active _ completed _ => pure completed.length
  | .Failed => fail writerFailed

def activeFolder : WriterM (StreamingFolder × List CompletedFolder × FolderProgress) := do
  let w ← get
  match w.state with
  | .Ready _ => fail .parse
  | .Active folder completed progress => pure (folder, completed, progress)
  | .Failed => fail writerFailed

def appendEmptyEntry (entry : ArchiveEntry) : WriterM Unit := do
  external outside
  let folderId ← nextFolderId
  pushEntry { name := entry.name, rawName := none, kind := entry.kind, metadata := entry.metadata,
              stream := .Empty, folderId }

def completedFolders (prepared : PreparedArchiveOptions) : WriterState → WriterM (List CompletedFolder)
  | .Ready completed => pure completed
  | .Active folder completed _ => do
    let folder ← folder.complete outside prepared
    pure (completed ++ [folder])
  | .Failed => fail writerFailed

def sealStreamingFolder : WriterM Unit := do
  let w ← get
  setState .Failed
  external outside
  let completed ← completedFolders outside w.prepared w.state
  external outside
  setState (.Ready completed)

def newFolder : WriterM Unit := sealStreamingFolder outside

def reserveSignature (completed : List CompletedFolder) : WriterM Unit :=
  if completed.isEmpty then do
    seek outside 0
    writeAll outside (List.replicate 32 0)
  else pure ()

def ensureStreamingFolder (plan : FolderPlan) : WriterM Unit := do
  let w ← get
  match w.state with
  | .Active .. => pure ()
  | .Failed => fail writerFailed
  | .Ready completed => do
    setState .Failed
    reserveSignature outside completed
    let folder ← StreamingFolder.encoded outside plan.knownSize w.prepared
    setState (.Active folder completed FolderProgress.default)

def recordStream (entryIndex : WriteEntryIndex) (size : UInt64) (checksum : UInt32) : WriterM Unit := do
  let (folder, completed, progress) ← activeFolder
  let folder ← ofExcept (folder.recordStream entryIndex size checksum)
  setState (.Active folder completed progress)

def finishEntryFolderAccounting (size : UInt64) : WriterM Unit := do
  let (folder, completed, progress) ← activeFolder
  let progress ← ofExcept (progress.record size)
  setState (.Active folder completed progress)
  let w ← get
  if progress.reachedLimit w.prepared.solid then newFolder outside else pure ()

def writeChunk (chunk : List UInt8) : WriterM Unit := do
  let (folder, completed, progress) ← activeFolder
  let w ← get
  let folder ← folder.write outside w.prepared chunk
  setState (.Active folder completed progress)

def read (reader : Reader) : WriterM (List UInt8) := do
  external outside
  match reader with
  | .error e :: _ => fail e
  | .ok chunk :: _ => do
    external outside
    pure chunk
  | [] => do
    external outside
    pure []

def writeChunks : (reader : Reader) → (chunk seen : List UInt8) → (size : UInt64) →
    WriterM (List UInt8 × UInt64)
  | reader, chunk, seen, size => do
    writeChunk outside chunk
    let size ← ofExcept (checkedAddU64 size (UInt64.ofNat chunk.length))
    let next ← read outside reader
    match reader with
    | [] => pure (seen ++ chunk, size)
    | _ :: reader =>
      if next.isEmpty then pure (seen ++ chunk, size)
      else writeChunks reader next (seen ++ chunk) size

def pushStreaming (name : String) (metadata : EntryMeta) (size : UInt64) (checksum : UInt32) :
    WriterM Unit := do
  let w ← get
  let folderId ← nextFolderId
  pushEntry { name, rawName := none, kind := .File, metadata, stream := .Streaming, folderId }
  recordStream w.entries.length size checksum

def appendStreaming (name : String) (reader : Reader) (metadata : EntryMeta) (plan : FolderPlan) :
    WriterM Unit := do
  let first ← read outside reader
  if first.isEmpty then
    -- a file that turns out empty: the builder planned it into a folder, the writer needs none
    match plan with
    | .Preplanned _ => do
      ensureStreamingFolder outside plan
      pushStreaming name metadata 0 (outside.crc32 [])
    | .Automatic => do
      let folderId ← nextFolderId
      pushEntry { name, rawName := none, kind := .File, metadata, stream := .Empty, folderId }
  else do
    ensureStreamingFolder outside plan
    let (data, size) ← writeChunks outside reader.tail first [] 0
    pushStreaming name metadata size (outside.crc32 data)
    match plan with
    | .Automatic => finishEntryFolderAccounting outside size
    | .Preplanned _ => pure ()

def appendFile (name : String) (reader : Reader) (metadata : EntryMeta) : WriterM Unit := do
  let append : WriterM Unit := do
    let w ← get
    match w.state with
    | .Failed => fail writerFailed
    | _ => appendStreaming outside name reader metadata .Automatic
  onError append fun w => { w with state := .Failed }

def append (name : String) (reader : Reader) : WriterM Unit :=
  appendFile outside name reader EntryMeta.default

def appendEntry (name : String) (reader : Reader) (metadata : EntryMeta) : WriterM Unit :=
  appendFile outside name reader metadata

def sliceReader (prepared : PreparedArchiveOptions) (data : List UInt8) : Reader :=
  (data.toChunks prepared.bufferSize).map .ok

def appendSymlink (name target : String) (metadata : EntryMeta) : WriterM Unit := do
  let w ← get
  appendFile outside name (sliceReader w.prepared target.toUTF8.toList) metadata.withSymlinkDefault

def appendEmptyFile (name : String) (metadata : EntryMeta) : WriterM Unit :=
  appendEmptyEntry outside { name, kind := .File, metadata }

def appendDirectory (name : String) (metadata : EntryMeta) : WriterM Unit :=
  appendEmptyEntry outside { name, kind := .Directory, metadata }

def appendAntiItem (name : String) (metadata : EntryMeta) : WriterM Unit :=
  appendEmptyEntry outside { name, kind := .Anti, metadata }

def appendArchiveEntry (entry : ArchiveEntry) (reader : Reader) : WriterM Unit :=
  if entry.kind ≠ .File then fail (.invalidOptions "only file entries can have stream data")
  else appendFile outside entry.name reader entry.metadata

end ArchiveWriter

/-! The end of the archive -/

def signatureBytes (nextHeaderOffset : UInt64) (nextHeader : List UInt8) : List UInt8 :=
  let startHeader := toLeBytes 8 nextHeaderOffset.toNat ++ toLeBytes 8 nextHeader.length ++
    toLeBytes 4 (outside.crc32 nextHeader).toNat
  [0x37, 0x7A, 0xBC, 0xAF, 0x27, 0x1C, 0x00, 0x04] ++ toLeBytes 4 (outside.crc32 startHeader).toNat ++
    startHeader

structure EncodedHeader where
  packed : List UInt8
  coderInfo : List UInt8
  unpackSizes : List UInt64

def encodeHeaderStream (rawHeader : List UInt8) (prepared : PreparedArchiveOptions) :
    WriterM EncodedHeader := do
  external outside
  let (props, compressed) := outside.compressLzma rawHeader
  let size := UInt64.ofNat rawHeader.length
  -- the header is encrypted where that was asked for, not wherever there is a password
  match prepared.encryption.filter PreparedEncryption.encryptHeader with
  | none => pure { packed := compressed, coderInfo := encodeCoderInfoLzma props, unpackSizes := [size] }
  | some encryption => do
    let (key, iv, aesProps) ← makeAesMaterial outside encryption
    external outside
    pure { packed := (outside.aes key iv).encode [compressed]
           coderInfo := encodeCoderInfoAesThen [.Lzma props] aesProps
           unpackSizes := [UInt64.ofNat compressed.length, size] }

def checkedSum (sizes : List UInt64) : Except R7zError UInt64 := sizes.foldlM checkedAddU64 0

def packedSize (folders : List CompletedFolder) : Except R7zError UInt64 :=
  folders.foldlM (fun acc folder => do
    let folderSize ← checkedSum folder.packSizes
    checkedAddU64 acc folderSize) 0

/-- The header as it is referred to by the signature, and where: as it is, or encoded and described. -/
def placeHeader (rawHeader : List UInt8) (packedSize : UInt64) (numEntries : Nat)
    (prepared : PreparedArchiveOptions) : WriterM (List UInt8 × UInt64) :=
  let shouldEncode := match prepared.headerMode with
    | .Plain => false
    | .Encoded => true
    | .P7zipDefault => decide (1 < numEntries) || prepared.encryption.isSome
  if shouldEncode then do
    let encoded ← encodeHeaderStream outside rawHeader prepared
    seek outside (32 + packedSize.toNat)
    writeAll outside encoded.packed
    pure (buildEncodedHeaderDescriptor packedSize (UInt64.ofNat encoded.packed.length)
      encoded.coderInfo encoded.unpackSizes, packedSize + UInt64.ofNat encoded.packed.length)
  else pure (rawHeader, packedSize)

/-- The rest of an archive whose packed streams are out: the header, and the signature in front. -/
def writeNextHeader (rawHeader : List UInt8) (packedSize : UInt64) (numEntries : Nat)
    (prepared : PreparedArchiveOptions) : WriterM Unit := do
  let (nextHeader, nextHeaderOffset) ← placeHeader outside rawHeader packedSize numEntries prepared
  seek outside (32 + nextHeaderOffset.toNat)
  writeAll outside nextHeader
  seek outside 0
  writeAll outside (signatureBytes outside nextHeaderOffset nextHeader)
  external outside
  external outside

def finishStreamedArchive (entries : List WriteEntry) (folders : List CompletedFolder)
    (prepared : PreparedArchiveOptions) : WriterM Unit := do
  external outside
  let size ← ofExcept (packedSize folders)
  writeNextHeader outside (buildHeader entries folders) size entries.length prepared

def takeFolders : WriterM (List CompletedFolder) := do
  let w ← get
  setState .Failed
  match w.state with
  | .Ready completed => pure completed
  | _ => fail writerFailed

def ArchiveWriter.finish : WriterM Unit := do
  external outside
  let w ← get
  match w.state with
  | .Failed => fail writerFailed
  | _ => do
    ArchiveWriter.sealStreamingFolder outside
    let folders ← takeFolders
    finishStreamedArchive outside w.entries folders w.prepared

/-! Runs -/

/-- The calls of a writer whose options can still change. -/
inductive PrepareCall where
  | appendEmptyEntry (entry : ArchiveEntry)
  | setCompression (prepared : Except R7zError PreparedArchiveOptions)

/-- The calls of a started writer. -/
inductive WriterCall where
  | appendEmptyEntry (entry : ArchiveEntry)
  | appendFile (name : String) (reader : Reader) (metadata : EntryMeta)
  | append (name : String) (reader : Reader)
  | appendEntry (name : String) (reader : Reader) (metadata : EntryMeta)
  | appendArchiveEntry (entry : ArchiveEntry) (reader : Reader)
  | appendSymlink (name target : String) (metadata : EntryMeta)
  | appendEmptyFile (name : String) (metadata : EntryMeta)
  | appendDirectory (name : String) (metadata : EntryMeta)
  | appendAntiItem (name : String) (metadata : EntryMeta)
  | newFolder

def PrepareCall.run : PrepareCall → WriterM Unit
  | appendEmptyEntry entry => ArchiveWriter.appendEmptyEntry outside entry
  | setCompression prepared => do
    let prepared ← ofExcept prepared
    modify fun w => { w with prepared }

def WriterCall.run : WriterCall → WriterM Unit
  | appendEmptyEntry entry => ArchiveWriter.appendEmptyEntry outside entry
  | appendFile name reader metadata => ArchiveWriter.appendFile outside name reader metadata
  | append name reader => ArchiveWriter.append outside name reader
  | appendEntry name reader metadata => ArchiveWriter.appendEntry outside name reader metadata
  | appendArchiveEntry entry reader => ArchiveWriter.appendArchiveEntry outside entry reader
  | appendSymlink name target metadata => ArchiveWriter.appendSymlink outside name target metadata
  | appendEmptyFile name metadata => ArchiveWriter.appendEmptyFile outside name metadata
  | appendDirectory name metadata => ArchiveWriter.appendDirectory outside name metadata
  | appendAntiItem name metadata => ArchiveWriter.appendAntiItem outside name metadata
  | newFolder => ArchiveWriter.newFolder outside

def PrepareCall.name : PrepareCall → Option String
  | appendEmptyEntry entry => some entry.name
  | setCompression _ => none

def WriterCall.name : WriterCall → Option String
  | appendEmptyEntry entry => some entry.name
  | appendFile name _ _ => some name
  | append name _ => some name
  | appendEntry name _ _ => some name
  | appendArchiveEntry entry _ => some entry.name
  | appendSymlink name _ _ => some name
  | appendEmptyFile name _ => some name
  | appendDirectory name _ => some name
  | appendAntiItem name _ => some name
  | newFolder => none

end

end R7z.Write
