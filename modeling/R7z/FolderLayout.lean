import R7z.FolderGraph
import R7z.StreamInfo

/-! Where the data of each folder lies: its packed streams, its coder sizes, and the substreams its
output is cut into. The tables of the header are handed out folder by folder. -/

namespace R7z

def getRange {α : Type} (table : List α) (start stop : Nat) : Option (List α) :=
  if start ≤ stop ∧ stop ≤ table.length then some ((table.drop start).take (stop - start)) else none

def orParseError {α : Type} (o : Option α) : Except R7zError α :=
  match o with
  | some a => .ok a
  | none => .error .parse

def checkedUsizeAdd (a b : Nat) : Except R7zError Nat :=
  if a + b < usizeLimit then .ok (a + b) else .error .parse

def sumSizes (sizes : List UInt64) (start : Nat) : Except R7zError Nat :=
  sizes.foldlM (fun total size =>
    if total + size.toNat < 2 ^ 64 then .ok (total + size.toNat) else .error .parse) start

structure PackedStream where
  start : Nat
  stop : Nat
  crc : Option UInt32
deriving DecidableEq, Repr

/-- The packed streams of one folder: their sizes lie one after the other from `start`. -/
structure PackedStreams where
  sizes : List UInt64
  digests : List (Option UInt32)
  start : Nat
deriving DecidableEq, Repr

def packedStreamsFrom (digests : List (Option UInt32)) : Nat → Nat → List UInt64 → List PackedStream
  | _, _, [] => []
  | index, offset, size :: sizes =>
    { start := offset, stop := offset + size.toNat, crc := (digests[index]?).join } ::
      packedStreamsFrom digests (index + 1) (offset + size.toNat) sizes

def PackedStreams.iter (streams : PackedStreams) : List PackedStream :=
  packedStreamsFrom streams.digests 0 streams.start streams.sizes

/-- The sizes of a folder's substreams; the last one is what the others leave of the output. -/
structure FolderStreamLayout where
  explicitSizes : List UInt64
  finalSize : Option UInt64
  digests : List (Option UInt32)
deriving DecidableEq, Repr

namespace FolderStreamLayout

def new (decodedLen : UInt64) (streamCount : Nat) (explicitSizes : List UInt64)
    (digests : List (Option UInt32)) : Except R7zError FolderStreamLayout := do
  if explicitSizes.length ≠ streamCount - 1 ∨ (¬digests.isEmpty ∧ digests.length ≠ streamCount) then
    .error .parse
  else
    let explicitTotal ← sumSizes explicitSizes 0
    if decodedLen.toNat < explicitTotal then .error .parse
    else
      let remaining := UInt64.ofNat (decodedLen.toNat - explicitTotal)
      return { explicitSizes, finalSize := if streamCount ≠ 0 then some remaining else none, digests }

def len (layout : FolderStreamLayout) : Nat :=
  layout.explicitSizes.length + if layout.finalSize.isSome then 1 else 0

end FolderStreamLayout

structure Substream where
  start : Nat
  stop : Nat
  digest : Option UInt32
deriving DecidableEq, Repr

structure Substreams where
  layout : FolderStreamLayout
  position : Nat
  offset : Nat
deriving DecidableEq, Repr

def FolderStreamLayout.streams (layout : FolderStreamLayout) : Substreams :=
  { layout, position := 0, offset := 0 }

namespace Substreams

def next (streams : Substreams) : Option (Substream × Substreams) :=
  if streams.position = streams.layout.len then none
  else
    match (streams.layout.explicitSizes[streams.position]?).or streams.layout.finalSize with
    | none => none
    | some size =>
      let stop := streams.offset + size.toNat
      some ({ start := streams.offset, stop, digest := (streams.layout.digests[streams.position]?).join },
        { streams with position := streams.position + 1, offset := stop })

def remaining (streams : Substreams) : Nat := streams.layout.len - streams.position

def collect : Nat → Substreams → List Substream
  | 0, _ => []
  | n + 1, streams =>
    match streams.next with
    | none => []
    | some (stream, streams) => stream :: collect n streams

def toList (streams : Substreams) : List Substream := collect streams.remaining streams

end Substreams

structure FolderLayout where
  folder : Folder
  graph : FolderGraph
  streams : PackedStreams
  coderSizes : List UInt64
  unpackSize : UInt64
  crc : Option UInt32
  layout : FolderStreamLayout
deriving DecidableEq, Repr

def FolderLayout.substreams (folder : FolderLayout) : Substreams := folder.layout.streams

structure FolderPlans where
  packInfo : PackInfo
  unpackInfo : UnpackInfo
  substreamInfo : Option SubstreamInfo
  folderIndex : Nat
  packIndex : Nat
  outputBase : Nat
  packOffset : Nat
  streamSizeBase : Nat
  streamDigestBase : Nat
  finished : Bool
deriving DecidableEq, Repr

namespace FolderPlans

def new (packInfo : PackInfo) (unpackInfo : UnpackInfo) (substreamInfo : Option SubstreamInfo) :
    FolderPlans :=
  { packInfo, unpackInfo, substreamInfo, folderIndex := 0, packIndex := 0, outputBase := 0,
    packOffset := 0, streamSizeBase := 0, streamDigestBase := 0, finished := false }

def validateComplete (plans : FolderPlans) : Except R7zError Unit :=
  let packCount := plans.packInfo.packSize.length
  let folderCount := plans.unpackInfo.numFoldersUsize
  let substreamsComplete : Bool := match plans.substreamInfo with
    | none => true
    | some info =>
      decide (info.numUnpackStreamsPerFolder.length = folderCount) &&
        decide (info.unpackSizes.length = plans.streamSizeBase) &&
        (info.digests.isEmpty || decide (info.digests.length = plans.streamDigestBase))
  if plans.packIndex ≠ packCount ∨ plans.packInfo.numPackStreams.toNat ≠ packCount ∨
      plans.unpackInfo.numFolders.toNat ≠ folderCount ∨
      plans.outputBase ≠ plans.unpackInfo.unpackSizes.length ∨
      (¬plans.packInfo.digests.isEmpty ∧ plans.packInfo.digests.length ≠ packCount) ∨
      (¬plans.unpackInfo.digests.isEmpty ∧ plans.unpackInfo.digests.length ≠ folderCount) ∨
      ¬substreamsComplete then .error .parse
  else .ok ()

def folderStreamCount (plans : FolderPlans) : Except R7zError Nat :=
  match plans.substreamInfo with
  | none => .ok 1
  | some info => do
    let count ← orParseError info.numUnpackStreamsPerFolder[plans.folderIndex]?
    return count.toNat

def explicitStreamSizes (plans : FolderPlans) (stop : Nat) : Except R7zError (List UInt64) :=
  match plans.substreamInfo with
  | some info => orParseError (getRange info.unpackSizes plans.streamSizeBase stop)
  | none => .ok []

/-- The digests of the next folder's substreams; without a substream section, the folder's own. -/
def streamDigests (plans : FolderPlans) (stop : Nat) : Except R7zError (List (Option UInt32)) :=
  match plans.substreamInfo with
  | some info =>
    if ¬info.digests.isEmpty then orParseError (getRange info.digests plans.streamDigestBase stop)
    else .ok []
  | none =>
    .ok ((getRange plans.unpackInfo.digests plans.folderIndex (plans.folderIndex + 1)).getD [])

def nextFolder (plans : FolderPlans) : Except R7zError (FolderLayout × FolderPlans) := do
  let (folder, graph) ← plans.unpackInfo.parseFolderWithGraph plans.folderIndex
  let packEnd ← checkedUsizeAdd plans.packIndex graph.packedStreamCount
  let packSizes ← orParseError (getRange plans.packInfo.packSize plans.packIndex packEnd)
  let outputEnd ← checkedUsizeAdd plans.outputBase folder.totalOutStreams
  let coderSizes ← orParseError (getRange plans.unpackInfo.unpackSizes plans.outputBase outputEnd)
  let unpackSize ← orParseError coderSizes[graph.finalOutput]?
  let streamCount ← plans.folderStreamCount
  -- the size of a folder's last stream is not in the table
  let streamSizeEnd ← checkedUsizeAdd plans.streamSizeBase (streamCount - 1)
  let explicitSizes ← plans.explicitStreamSizes streamSizeEnd
  let streamDigestEnd ← checkedUsizeAdd plans.streamDigestBase streamCount
  let digests ← plans.streamDigests streamDigestEnd
  let layout ← FolderStreamLayout.new unpackSize streamCount explicitSizes digests
  let packOffset ← sumSizes packSizes plans.packOffset
  let packDigests := plans.packInfo.digests
  -- as many packed checksums as the table still has
  let streams : PackedStreams :=
    { sizes := packSizes
      digests := (getRange packDigests plans.packIndex (min packEnd packDigests.length)).getD []
      start := plans.packOffset }
  let crc := (plans.unpackInfo.digests[plans.folderIndex]?).join
  return ({ folder, graph, streams, coderSizes, unpackSize, crc, layout },
    { plans with folderIndex := plans.folderIndex + 1, packIndex := packEnd, packOffset,
                 outputBase := outputEnd, streamSizeBase := streamSizeEnd,
                 streamDigestBase := streamDigestEnd })

def next (plans : FolderPlans) : Option (Except R7zError FolderLayout) × FolderPlans :=
  if plans.finished then (none, plans)
  else if plans.folderIndex = plans.unpackInfo.numFoldersUsize then
    match plans.validateComplete with
    | .ok () => (none, { plans with finished := true })
    | .error e => (some (.error e), { plans with finished := true })
  else
    match plans.nextFolder with
    | .ok (folder, plans) => (some (.ok folder), plans)
    | .error e => (some (.error e), { plans with finished := true })

end FolderPlans

def substreamCount (folderCount : Nat) (substreamInfo : Option SubstreamInfo) : Except R7zError Nat :=
  match substreamInfo with
  | none => .ok folderCount
  | some info =>
    if info.numUnpackStreamsPerFolder.length ≠ folderCount then .error .parse
    else info.numUnpackStreamsPerFolder.foldlM (fun total count => checkedUsizeAdd total count.toNat) 0

structure FolderLayouts where
  plans : FolderPlans
  streamCount : Nat
deriving DecidableEq, Repr

def StreamInfo.packedFolders (streams : StreamInfo) : Except R7zError (PackInfo × UnpackInfo) :=
  match streams.packInfo, streams.unpackInfo with
  | some pack, some unpack => .ok (pack, unpack)
  | _, _ => .error .parse

namespace FolderLayouts

def forStreams (streams : StreamInfo) : Except R7zError FolderLayouts := do
  let (pack, unpack) ← streams.packedFolders
  let folderCount := unpack.numFoldersUsize
  if pack.numPackStreams.toNat ≠ pack.packSize.length ∨
      (¬pack.digests.isEmpty ∧ pack.digests.length ≠ pack.packSize.length) ∨
      unpack.numFolders.toNat ≠ folderCount ∨
      (¬unpack.digests.isEmpty ∧ unpack.digests.length ≠ folderCount) then .error .parse
  else
    let streamCount ← substreamCount folderCount streams.substreamInfo
    return { plans := FolderPlans.new pack unpack streams.substreamInfo, streamCount }

def next (layouts : FolderLayouts) : Option (Except R7zError FolderLayout) × FolderLayouts :=
  let (item, plans) := layouts.plans.next
  (item, { layouts with plans })

def collect : Nat → FolderLayouts → Except R7zError (List FolderLayout)
  | 0, _ => .ok []
  | n + 1, layouts =>
    match layouts.next with
    | (none, _) => .ok []
    | (some (.error e), _) => .error e
    | (some (.ok folder), layouts) => do
      let folders ← collect n layouts
      return folder :: folders

def toList (layouts : FolderLayouts) : Except R7zError (List FolderLayout) :=
  collect (layouts.plans.unpackInfo.numFoldersUsize + 1) layouts

end FolderLayouts

end R7z
