import R7z.FilesInfo

/-! The header: a scan that checks its layout and remembers where each section lies, and the parsers
that build a section when it is first asked for. -/

namespace R7z

open Wire Wire.Parser

/-- The errors of the library; an I/O error keeps nothing but its being one. -/
inductive R7zError where
  | cancelled
  | parse
  | invalidFolderGraph
  | archiveMismatch
  | invalidRawFolderLayout
  | unsupportedCodec (id : List UInt8)
  | crc
  | io
  | decompression
  | passwordRequired
  | wrongPassword
  | directory
  | invalidOptions (what : String)
  | limitExceeded (what : String)
  | resourceLimitExceeded (resource : String) (limit : UInt64)
deriving DecidableEq, Repr

def orParse {α : Type} (p : NomParser α) : Parser R7zError α := mapError (fun _ => .parse) p

def scanArchivePropertiesTurn (_ : Unit) : NomParser (Turn Unit Unit) := do
  let propertyId ← sevenzipVaruint64Decode
  if propertyId = Property.END.toU8.toUInt64 then pure (.done ())
  else
    skipSection
    pure (.again ())

def scanArchiveProperties : NomParser Unit := loop (.error .eof) scanArchivePropertiesTurn ()

structure Range where
  start : UInt32
  stop : UInt32
deriving DecidableEq, Repr

def Range.get (range : Range) (data : Slice) : Option Slice :=
  if range.start.toNat ≤ range.stop.toNat ∧ range.stop.toNat ≤ data.bytes.length then
    some ⟨data.addr + range.start.toNat,
      (data.bytes.drop range.start.toNat).take (range.stop.toNat - range.start.toNat)⟩
  else none

structure HeaderScan where
  data : Slice
  position : Nat
  streamsInfoRange : Option Range
  filesInfoRange : Option Range
  additionalStreamsRange : Option Range
  numFiles : UInt64

structure Header where
  data : Slice
  streamsInfoRange : Option Range
  filesInfoRange : Option Range
  additionalStreamsRange : Option Range
  externalFolderData : List Slice
  numFiles : UInt64

structure PendingHeader where
  scan : HeaderScan
  additional : StreamInfo

inductive HeaderProgress where
  | complete (header : Header) (consumed : Nat)
  | pending (pending : PendingHeader)

inductive HeaderResolution where
  | complete (header : Header)
  | requiresExternalFolders (pending : PendingHeader)

namespace HeaderProgress

def completeExact : HeaderProgress → Except R7zError Header
  | complete header consumed =>
    if consumed = header.data.bytes.length then .ok header else .error .parse
  | pending _ => .error .parse

def intoResolution (progress : HeaderProgress) : Except R7zError HeaderResolution :=
  match progress with
  | pending p => .ok (.requiresExternalFolders p)
  | complete header consumed => (completeExact (complete header consumed)).map .complete

end HeaderProgress

namespace HeaderScan

def new (data : Slice) : Except R7zError HeaderScan := do
  let (tag, remaining) ← orParse Property.parse data
  if tag = .Header then
    return { data, position := data.bytes.length - remaining.bytes.length, streamsInfoRange := none,
             filesInfoRange := none, additionalStreamsRange := none, numFiles := 0 }
  else throw .parse

def header (scan : HeaderScan) (external : Option (List Slice)) : Header :=
  { data := scan.data, streamsInfoRange := scan.streamsInfoRange,
    filesInfoRange := scan.filesInfoRange, additionalStreamsRange := scan.additionalStreamsRange,
    externalFolderData := external.getD [], numFiles := scan.numFiles }

def offsetOf (scan : HeaderScan) (here : Slice) : Except R7zError UInt32 :=
  let distance := scan.data.bytes.length - here.bytes.length
  if distance < 2 ^ 32 then .ok (UInt32.ofNat distance) else .error .parse

def suspend (scan : HeaderScan) : Except R7zError PendingHeader :=
  match scan.additionalStreamsRange with
  | none => .error .parse
  | some range =>
    match range.get scan.data with
    | none => .error .parse
    | some bytes =>
      match StreamInfo.parse scan.data bytes with
      | .ok (additional, rest) => if rest.bytes.isEmpty then .ok { scan, additional } else .error .parse
      | .error _ => .error .parse

def moveOn (scan : HeaderScan) : Parser R7zError (Turn HeaderScan HeaderProgress) := do
  let here ← input
  pure (.again { scan with position := scan.data.bytes.length - here.bytes.length })

def awaits (external : Option (List Slice)) (p : NomParser Bool) : Parser R7zError Bool :=
  if external.isNone then orParse (peek p) else pure false

def scanStreams (external : Option (List Slice)) (scan : HeaderScan) : Parser R7zError Range := do
  let afterTag ← input
  orParse (scanStreamInfoWithExternal (external.getD []))
  let remaining ← input
  let start ← ofExcept (scan.offsetOf afterTag)
  let stop ← ofExcept (scan.offsetOf remaining)
  pure { start, stop }

def turn (external : Option (List Slice)) (scan : HeaderScan) :
    Parser R7zError (Turn HeaderScan HeaderProgress) := do
  match ← orParse (peek Property.parse) with
  | .END => do
    let _ ← orParse Property.parse
    let afterTag ← input
    -- what is behind the end tag is left to the caller
    pure (.done (.complete (scan.header external) (scan.data.bytes.length - afterTag.bytes.length)))
  | .MainStreamsInfo => do
    let _ ← orParse Property.parse
    -- a look ahead: an external folder definition stops the scan before anything of the section is taken
    if ← awaits external StreamInfo.usesExternalFolderData then
      let pending ← ofExcept scan.suspend
      pure (.done (.pending pending))
    else
      let range ← scan.scanStreams external
      moveOn { scan with streamsInfoRange := some range }
  | .AdditionalStreamsInfo => do
    let _ ← orParse Property.parse
    let range ← scan.scanStreams external
    moveOn { scan with additionalStreamsRange := some range }
  | .FilesInfo => do
    let here ← input
    let (count, usesExternalData) ← orParse scanFilesInfoWithExternal
    if external.isNone && usesExternalData then
      let pending ← ofExcept scan.suspend
      pure (.done (.pending pending))
    else
      let remaining ← input
      let start ← ofExcept (scan.offsetOf here)
      let stop ← ofExcept (scan.offsetOf remaining)
      moveOn { scan with filesInfoRange := some { start, stop }, numFiles := count }
  | .ArchiveProperties => do
    let _ ← orParse Property.parse
    orParse scanArchiveProperties
    moveOn scan
  | _ => do
    let _ ← orParse Property.parse
    orParse skipSection
    moveOn scan

def advance (scan : HeaderScan) (external : Option (List Slice)) : Except R7zError HeaderProgress :=
  if scan.position ≤ scan.data.bytes.length then do
    let (progress, _) ← loop .parse (turn external) scan
      ⟨scan.data.addr + scan.position, scan.data.bytes.drop scan.position⟩
    return progress
  else throw .parse

end HeaderScan

def PendingHeader.resolveWith (pending : PendingHeader)
    (decode : StreamInfo → Except R7zError (List Slice)) : Except R7zError Header := do
  let external ← decode pending.additional
  let progress ← pending.scan.advance (some external)
  progress.completeExact

namespace Header

def resolveArchive (backing : Slice) : Except R7zError HeaderResolution := do
  let scan ← HeaderScan.new backing
  let progress ← scan.advance none
  progress.intoResolution

def parseSection {α : Type} (data : Slice) (range : Option Range) (p : NomParser α) :
    Except R7zError (Option α) :=
  match range with
  | none => .ok none
  | some range =>
    match range.get data with
    | none => .error .parse
    | some slice =>
      match p slice with
      | .ok (value, rest) => if rest.bytes.isEmpty then .ok (some value) else .error .parse
      | .error _ => .error .parse

def tryStreamsInfo (header : Header) : Except R7zError (Option StreamInfo) :=
  parseSection header.data header.streamsInfoRange
    (StreamInfo.parseWithExternal header.data header.externalFolderData)

def tryFilesInfo (header : Header) : Except R7zError (Option FilesInfo) :=
  parseSection header.data header.filesInfoRange do
    let files ← FilesInfo.parseWithExternal header.data header.externalFolderData
    if files.numFiles = header.numFiles then pure files else fail (.error .verify)

def tryAdditionalStreamsInfo (header : Header) : Except R7zError (Option StreamInfo) :=
  parseSection header.data header.additionalStreamsRange (StreamInfo.parse header.data)

def filesInfo (header : Header) : Option FilesInfo :=
  match header.tryFilesInfo with
  | .ok info => info
  | .error _ => none

def finish (progress : Except R7zError HeaderProgress) : Except NomErr (Header × Slice) :=
  match progress with
  | .ok (.complete header consumed) =>
    .ok (header, ⟨header.data.addr + consumed, header.data.bytes.drop consumed⟩)
  | _ => .error (.failure .verify)

def parse (backing : Slice) : Except NomErr (Header × Slice) :=
  finish (do let scan ← HeaderScan.new backing; scan.advance none)

def parseWithExternal (backing : Slice) (externalData : List Slice) : Except NomErr (Header × Slice) :=
  finish (do let scan ← HeaderScan.new backing; scan.advance (some externalData))

end Header

end R7z
