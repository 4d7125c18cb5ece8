import R7z.Decode.ActiveFolder
import R7z.Headers

/-! Opening an archive: the next header, the header that it may be encoded as, and the external folder
definitions that the header may refer to, all within one limit for metadata. -/

namespace R7z

open Effect Effect.Machine Wire

structure SignatureHeader where
  nextHeaderOffset : UInt64
  nextHeaderSize : UInt64
  nextHeaderCrc : UInt32
deriving DecidableEq, Repr

/-- The source that an archive is opened from; `place` is where a buffer comes to lie in memory. -/
structure SourceReader (ω : Type) where
  len : ω → Except R7zError UInt64 × ω
  findSignature : ω → Except R7zError (UInt64 × SignatureHeader) × ω
  readExactAt : (start length : Nat) → ω →
    Except R7zError { bytes : List UInt8 // bytes.length = length } × ω
  rangeCrc : (start stop : Nat) → ω → Except R7zError UInt32 × ω
  place : List UInt8 → ω → Nat × ω

/-! Folder layouts, checked in advance -/

structure PreflightedFolderLayouts where
  layouts : FolderLayouts
  outputSize : UInt64
deriving DecidableEq, Repr

namespace FolderLayouts

/-- The sizes of all outputs are added up, one turn for each folder and one for the end. -/
def addOutputs (limit : Option UInt64) : Nat → FolderPlans → UInt64 → Except R7zError (FolderPlans × UInt64)
  | 0, plans, outputSize => .ok (plans, outputSize)
  | turns + 1, plans, outputSize =>
    match plans.next with
    | (none, plans) => .ok (plans, outputSize)
    | (some (.error e), _) => .error e
    | (some (.ok folder), plans) => do
      let outputSize ← checkedAddPosition outputSize folder.unpackSize
      if limit.any fun limit => outputSize > limit then .error (.limitExceeded "metadata")
      else addOutputs limit turns plans outputSize

def validate (pack : PackInfo) (unpack : UnpackInfo) (substreamInfo : Option SubstreamInfo)
    (limit : Option UInt64) : Except R7zError PreflightedFolderLayouts := do
  let packedBytes ← pack.packSize.foldlM checkedAddPosition 0
  if limit.any fun limit => packedBytes > limit then .error (.limitExceeded "metadata")
  else do
    let plans := FolderPlans.new pack unpack substreamInfo
    let (preflight, outputSize) ← addOutputs limit (unpack.numFoldersUsize + 1) plans 0
    let streamCount ← substreamCount unpack.numFoldersUsize substreamInfo
    if streamCount ≠ preflight.streamDigestBase then .error .parse
    else return { layouts := { plans, streamCount }, outputSize }

def preflight (pack : PackInfo) (unpack : UnpackInfo) (substreamInfo : Option SubstreamInfo)
    (metadataLimit : UInt64) : Except R7zError PreflightedFolderLayouts :=
  validate pack unpack substreamInfo (some metadataLimit)

end FolderLayouts

structure EncodedHeader where
  packInfo : PackInfo
  unpackInfo : UnpackInfo
deriving DecidableEq, Repr

namespace EncodedHeader

def parse (backing : Slice) : NomParser EncodedHeader := do
  let packInfo ← PackInfo.parse
  let unpackInfo ← UnpackInfo.parse backing
  pure { packInfo, unpackInfo }

def folder (encoded : EncodedHeader) (metadataLimit : UInt64) : Except R7zError FolderLayout :=
  if encoded.packInfo.numPackStreams = 1 ∧ encoded.packInfo.packSize.length = 1 ∧
      encoded.unpackInfo.numFolders = 1 ∧ encoded.unpackInfo.numFoldersUsize = 1 then do
    let validated ← FolderLayouts.preflight encoded.packInfo encoded.unpackInfo none metadataLimit
    match validated.layouts.next.1 with
    | none => .error .parse
    | some folder => folder
  else .error .parse

end EncodedHeader

inductive NextHeader where
  | Plain
  | Encoded (encoded : EncodedHeader)

def NextHeader.parse (backing : Slice) : Except R7zError NextHeader := do
  let (tag, input) ← orParse Property.parse backing
  match tag with
  | .Header => return .Plain
  | .EncodedHeader => do
    let (encoded, _) ← orParse (EncodedHeader.parse backing) input
    return .Encoded encoded
  | _ => .error .parse

def checkedRange (total start length : UInt64) : Except R7zError (UInt64 × UInt64) := do
  let stop ← checkedAddPosition start length
  if stop ≤ total then return (start, stop) else .error .parse

def BYTES_SIZE : Nat := 32

def externalSlotBytes (streamCount : Nat) : Except R7zError UInt64 :=
  if streamCount * BYTES_SIZE < 2 ^ 64 then .ok (UInt64.ofNat (streamCount * BYTES_SIZE))
  else .error (.limitExceeded "metadata")

def notePlanned (block : MetadataBlock) (size : Nat) (history : History) : History :=
  { history with planned := history.planned ++ [(block, size)] }

def noteHeld (block : MetadataBlock) (size : Nat) (history : History) : History :=
  { history with held := history.held ++ [(block, size)] }

def decodedStreams (crc32 : List UInt8 → UInt32) (buffer : Slice) :
    List Substream → Except R7zError (List Slice)
  | [] => .ok []
  | substream :: substreams =>
    let stream : Slice := ⟨buffer.addr + substream.start,
      (buffer.bytes.drop substream.start).take (substream.stop - substream.start)⟩
    if substream.digest.any fun expected => crc32 stream.bytes ≠ expected then .error .crc
    else do
      let streams ← decodedStreams crc32 buffer substreams
      return stream :: streams

section
variable {ω δ : Type} (env : Environment ω δ) (source : SourceReader ω)

namespace SourceReader

def readRangeToVec (block : MetadataBlock) (range : UInt64 × UInt64) (limit : UInt64) :
    OperationM ω (List UInt8) :=
  let length := range.2.toNat - range.1.toNat
  if length > limit.toNat then fail (.limitExceeded "metadata")
  else do
    Operation.recordHistory (notePlanned block length)
    let bytes ← Operation.external (source.readExactAt range.1.toNat length)
    Operation.recordHistory (noteHeld block bytes.val.length)
    pure bytes.val

def buffer (bytes : List UInt8) : OperationM ω Slice := do
  let addr ← Operation.external fun outside => (.ok (source.place bytes outside).1, (source.place bytes outside).2)
  pure ⟨addr, bytes⟩

end SourceReader

def readToEnd (limit : Nat) : Nat → CheckedReader δ → List UInt8 → OperationM ω (List UInt8)
  | 0, _, _ => fail .io
  | turns + 1, reader, output =>
    if output.length = limit then pure output
    else fun op =>
      match reader.read env (min 8192 (limit - output.length)) op.outside with
      | (.ok bytes, reader, outside) =>
        if bytes.isEmpty then (.ok output, { op with outside })
        else readToEnd limit turns reader (output ++ bytes) { op with outside }
      | (.error .interrupted, reader, outside) => readToEnd limit turns reader output { op with outside }
      | (.error _, _, outside) => (.error .io, { op with outside })

def FolderReader.readBoundedToVec (readLimit : Nat) : FolderReader δ → OperationM ω (List UInt8)
  | .Stream reader => readToEnd env readLimit env.copyTurns reader []
  | .Buffered bytes => pure (bytes.take readLimit)

def verifyFolderOutput (folder : FolderLayout) (bytes : List UInt8) : Except R7zError Unit :=
  if bytes.length ≠ folder.unpackSize.toNat then .error .decompression
  else ((DigestState.new folder.crc).update bytes).finish env.crc32

def ReadyFolder.collect (block : MetadataBlock) (ready : ReadyFolder δ) (password : Option String)
    (limit : UInt64) : OperationM ω (List UInt8) :=
  let unpackSize := ready.folder.unpackSize
  if ¬unpackSize.toNat + 1 < 2 ^ 64 then fail (.limitExceeded "metadata")
  else if unpackSize > limit then fail (.limitExceeded "metadata")
  else do
    Operation.recordHistory (notePlanned block unpackSize.toNat)
    let reader ← ready.decoder.start env password
    let bytes ← reader.readBoundedToVec env (unpackSize.toNat + 1)
    Operation.recordHistory (noteHeld block bytes.length)
    ofExcept (verifyFolderOutput env ready.folder bytes)
    pure bytes

def mapMetadataError {α : Type} (m : OperationM ω α) : OperationM ω α := fun op =>
  match m op with
  | (.ok a, op) => (.ok a, op)
  | (.error e, op) => (.error (op.budget.mapMetadataError e), op)

/-! External folder definitions -/

structure ExternalFolderPlan where
  folders : FolderLayouts
  outputLimit : UInt64

def ExternalFolderPlan.new (streams : StreamInfo) : OperationM ω ExternalFolderPlan := do
  let (pack, unpack) ← ofExcept streams.packedFolders
  let remaining ← Operation.metadataRemaining
  let validated ← mapMetadataError (ofExcept
    (FolderLayouts.preflight pack unpack streams.substreamInfo remaining))
  let slotBytes ← ofExcept (externalSlotBytes validated.layouts.streamCount)
  Operation.chargeMetadata slotBytes
  Operation.chargeMetadata validated.outputSize
  pure { folders := validated.layouts, outputLimit := validated.outputSize }

structure ExternalFolderCollector where
  data : List Slice
  remaining : Nat

def ExternalFolderCollector.append (collector : ExternalFolderCollector) (folder : FolderLayout)
    (buffer : Slice) : Except R7zError ExternalFolderCollector :=
  if folder.layout.len ≤ collector.remaining then do
    let streams ← decodedStreams env.crc32 buffer folder.substreams.toList
    return { data := collector.data ++ streams, remaining := collector.remaining - folder.layout.len }
  else .error .parse

def decodeFolders (packs : PackedSource) (password : Option String) (limit : UInt64) :
    Nat → FolderPlans → ExternalFolderCollector → OperationM ω ExternalFolderCollector
  | 0, _, collector => pure collector
  | turns + 1, plans, collector =>
    match plans.next with
    | (none, _) => pure collector
    | (some (.error e), _) => fail e
    | (some (.ok folder), plans) => do
      let ready ← folder.bind env packs
      let bytes ← ready.collect env .ExternalData password limit
      let buffer ← source.buffer bytes
      let collector ← ofExcept (collector.append env folder buffer)
      decodeFolders packs password limit turns plans collector

def ExternalFolderPlan.decode (plan : ExternalFolderPlan) (packs : PackedSource)
    (password : Option String) : OperationM ω (List Slice) := do
  let slots := plan.folders.streamCount * BYTES_SIZE
  Operation.recordHistory (notePlanned .ExternalSlots slots)
  Operation.recordHistory (noteHeld .ExternalSlots slots)
  let collector ← decodeFolders env source packs password plan.outputLimit
    (plan.folders.plans.unpackInfo.numFoldersUsize + 1) plan.folders.plans
    { data := [], remaining := plan.folders.streamCount }
  if collector.remaining = 0 then pure collector.data else fail .parse

def decodeAdditionalFolderData (baseOffset : UInt64) (streams : StreamInfo) (password : Option String) :
    OperationM ω (List Slice) := do
  let plan ← ExternalFolderPlan.new streams
  let packs ← ofExcept (PackedSource.new baseOffset plan.folders.plans.packInfo.packPos)
  plan.decode env source packs password

/-! The header -/

/-- The packed streams of the additional section lie within the source, with their checksums. -/
def verifyPackCrcs (dataStart : UInt64) (digests : List (Option UInt32)) :
    Nat → UInt64 → List UInt64 → OperationM ω Unit
  | _, _, [] => pure ()
  | index, packOffset, packSize :: packSizes => do
    let start ← ofExcept (checkedAddPosition dataStart packOffset)
    let sourceLen ← Operation.external source.len
    let range ← ofExcept (checkedRange sourceLen start packSize)
    match (digests[index]?).join with
    | none => pure ()
    | some expected => do
      let crc ← Operation.external (source.rangeCrc range.1.toNat range.2.toNat)
      if crc = expected then pure () else fail .crc
    let packOffset ← ofExcept (checkedAddPosition packOffset packSize)
    verifyPackCrcs dataStart digests (index + 1) packOffset packSizes

def verifyAdditionalStreamCrcs (baseOffset : UInt64) (header : Header) : OperationM ω Unit := do
  let streams ← ofExcept header.tryAdditionalStreamsInfo
  match streams.bind StreamInfo.packInfo with
  | none => pure ()
  | some packInfo => do
    let packs ← ofExcept (PackedSource.new baseOffset packInfo.packPos)
    verifyPackCrcs source packs.start packInfo.digests 0 0 packInfo.packSize

def parseHeaderWithExternalData (baseOffset : UInt64) (bytes : Slice) (password : Option String) :
    OperationM ω Header := do
  Operation.chargeMetadata (UInt64.ofNat bytes.bytes.length)
  match ← ofExcept (Header.resolveArchive bytes) with
  | .complete header => do
    verifyAdditionalStreamCrcs source baseOffset header
    pure header
  | .requiresExternalFolders pending => do
    let externalData ← decodeAdditionalFolderData env source baseOffset pending.additional password
    ofExcept (pending.resolveWith fun _ => .ok externalData)

def decodeEncodedHeader (baseOffset : UInt64) (encoded : EncodedHeader) (password : Option String) :
    OperationM ω Header := do
  let remaining ← Operation.metadataRemaining
  let folder ← mapMetadataError (ofExcept (encoded.folder remaining))
  let packs ← ofExcept (PackedSource.new baseOffset encoded.packInfo.packPos)
  let remaining ← Operation.metadataRemaining
  let decoded ← mapMetadataError do
    let ready ← folder.bind env packs
    ready.collect env .DecodedHeader password remaining
  let buffer ← source.buffer decoded
  parseHeaderWithExternalData env source baseOffset buffer password

structure OpenedArchive where
  baseOffset : UInt64
  signature : SignatureHeader
  encodedHeader : Option EncodedHeader
  header : Header

def OpenedArchive.fromSourceWithBudget (password : Option String) : OperationM ω OpenedArchive := do
  let op ← get
  let maxMetadataBytes := op.budget.limits.maxMetadataBytes
  let sourceLen ← Operation.external source.len
  let (baseOffset, signature) ← Operation.external source.findSignature
  if signature.nextHeaderSize > maxMetadataBytes then
    fail (.resourceLimitExceeded "metadata" maxMetadataBytes)
  else do
    let base ← ofExcept (checkedAddPosition baseOffset 32)
    let headerStart ← ofExcept (checkedAddPosition base signature.nextHeaderOffset)
    let headerRange ← ofExcept (checkedRange sourceLen headerStart signature.nextHeaderSize)
    let bytes ← source.readRangeToVec .NextHeader headerRange maxMetadataBytes
    if env.crc32 bytes ≠ signature.nextHeaderCrc then fail .crc
    else do
      let nextHeader ← source.buffer bytes
      match ← ofExcept (NextHeader.parse nextHeader) with
      | .Plain => do
        let header ← parseHeaderWithExternalData env source baseOffset nextHeader password
        pure { baseOffset, signature, encodedHeader := none, header }
      | .Encoded encoded => do
        -- a plain header is charged where it is parsed, an encoded one here
        Operation.chargeMetadata (UInt64.ofNat nextHeader.bytes.length)
        let header ← decodeEncodedHeader env source baseOffset encoded password
        pure { baseOffset, signature, encodedHeader := some encoded, header }

end

end R7z
