import R7z.PackInfo

/-! The stream section of a header: the packed streams, the folders, and how many streams each
folder's output holds. -/

namespace R7z

open Wire Wire.Parser

/-- A digest table within 64 MiB, at the eight bytes an optional `u32` takes. -/
def MAX_SUBSTREAM_DIGESTS : Nat := 64 * 1024 * 1024 / 8

structure SubstreamInfo where
  numUnpackStreamsPerFolder : List UInt64
  unpackSizes : List UInt64
  digests : List (Option UInt32)
deriving DecidableEq, Repr

def checkedSubstreamTotal (counts : List UInt64) : NomParser Nat :=
  counts.foldlM (fun total count => checkedUsize (total + count.toNat)) 0

def checkSubstreamDigestLimit (total : Nat) : NomParser Unit :=
  if total > MAX_SUBSTREAM_DIGESTS then fail (.error .tooLarge) else pure ()

def checkedSubstreamSizeCount (counts : List UInt64) : NomParser Nat :=
  counts.foldlM (fun total count => checkedUsize (total + (count.toNat - 1))) 0

def checkRemaining (n : Nat) : NomParser Unit := do
  let rest ← input
  if n > rest.bytes.length then fail (.error .eof) else pure ()

def parseStreamDigests (num : Nat) : NomParser (List (Option UInt32)) := do
  let allDefined ← leU8
  if allDefined = 0 then
    let bitmap ← takeBytes ((num + 7) / 8)
    let numDefined := (List.range num).countP (bitmapIsSet bitmap.bytes)
    let crcBytes ← checkedUsize (numDefined * 4)
    checkRemaining crcBytes
    optionals (bitmapIsSet bitmap.bytes) leU32 num
  else
    let crcBytes ← checkedUsize (num * 4)
    checkRemaining crcBytes
    optionals (fun _ => true) leU32 num

namespace SubstreamInfo

def turn (numFolders : Nat) (acc : SubstreamInfo) : NomParser (Turn SubstreamInfo SubstreamInfo) := do
  match ← Property.parse with
  | .END => pure (.done acc)
  | .NumUnPackStream => do
    let counts ← count sevenzipVaruint64Decode numFolders
    let _ ← checkedSubstreamTotal counts
    pure (.again { acc with numUnpackStreamsPerFolder := counts })
  | .Size => do
    -- one size less than there are streams, folder by folder
    let sizesToRead ← checkedSubstreamSizeCount acc.numUnpackStreamsPerFolder
    checkRemaining sizesToRead
    let sizes ← count sevenzipVaruint64Decode sizesToRead
    pure (.again { acc with unpackSizes := acc.unpackSizes ++ sizes })
  | .CRC => do
    let total ← checkedSubstreamTotal acc.numUnpackStreamsPerFolder
    checkSubstreamDigestLimit total
    let crcs ← parseStreamDigests total
    pure (.again { acc with digests := crcs })
  | _ => do
    skipSection
    pure (.again acc)

def initial (numFolders : Nat) : SubstreamInfo :=
  { numUnpackStreamsPerFolder := List.replicate numFolders 1, unpackSizes := [], digests := [] }

def parse (numFolders : Nat) : NomParser SubstreamInfo := do
  expectProperty .SubStreamsInfo
  loop (.error .eof) (turn numFolders) (initial numFolders)

end SubstreamInfo

structure SubstreamScan where
  sizesToRead : Nat
  totalStreams : Nat
deriving DecidableEq, Repr

def scanSubstreamCount (acc : SubstreamScan) : NomParser SubstreamScan := do
  let n ← sevenzipVaruint64Decode
  let sizesToRead ← checkedUsize (acc.sizesToRead + (n.toNat - 1))
  let totalStreams ← checkedUsize (acc.totalStreams + n.toNat)
  pure { sizesToRead, totalStreams }

def scanSubstreamTurn (numFolders : Nat) (acc : SubstreamScan) : NomParser (Turn SubstreamScan Unit) := do
  match ← Property.parse with
  | .END => pure (.done ())
  | .NumUnPackStream => do
    let acc ← iterate scanSubstreamCount numFolders { sizesToRead := 0, totalStreams := 0 }
    pure (.again acc)
  | .Size => do
    checkRemaining acc.sizesToRead
    skipMany sevenzipVaruint64Decode acc.sizesToRead
    pure (.again acc)
  | .CRC => do
    checkSubstreamDigestLimit acc.totalStreams
    scanDigests acc.totalStreams
    pure (.again acc)
  | _ => do
    skipSection
    pure (.again acc)

def scanSubstreamInfo (numFolders : Nat) : NomParser Unit := do
  expectProperty .SubStreamsInfo
  loop (.error .eof) (scanSubstreamTurn numFolders) { sizesToRead := 0, totalStreams := numFolders }

structure StreamInfo where
  packInfo : Option PackInfo
  unpackInfo : Option UnpackInfo
  substreamInfo : Option SubstreamInfo
deriving DecidableEq, Repr

namespace StreamInfo

def turn (backing : Slice) (externalData : List Slice) (acc : StreamInfo) :
    NomParser (Turn StreamInfo StreamInfo) := do
  match ← peek Property.parse with
  | .END => do
    let _ ← Property.parse
    pure (.done acc)
  | .PackInfo => do
    let pi ← PackInfo.parse
    pure (.again { acc with packInfo := some pi })
  | .UnPackInfo => do
    let ui ← UnpackInfo.parseWithExternal backing externalData
    pure (.again { acc with unpackInfo := some ui })
  | .SubStreamsInfo => do
    -- a section that comes before the folders counts none
    let numFolders := (acc.unpackInfo.map UnpackInfo.numFoldersUsize).getD 0
    let si ← SubstreamInfo.parse numFolders
    pure (.again { acc with substreamInfo := some si })
  | _ => do
    let _ ← Property.parse
    skipSection
    pure (.again acc)

def empty : StreamInfo := { packInfo := none, unpackInfo := none, substreamInfo := none }

def parseWithExternal (backing : Slice) (externalData : List Slice) : NomParser StreamInfo :=
  loop (.error .eof) (turn backing externalData) empty

def parse (backing : Slice) : NomParser StreamInfo := parseWithExternal backing []

def usesExternalTurn (_ : Unit) : NomParser (Turn Unit Bool) := do
  match ← peek Property.parse with
  | .END => do
    let _ ← Property.parse
    pure (.done false)
  | .UnPackInfo => do
    -- the answer is in the declaration, and the rest is not read
    let (_, location) ← parseFolderDeclaration
    pure (.done (location ≠ .inline))
  | .PackInfo => do
    scanPackInfo
    pure (.again ())
  | .SubStreamsInfo => do
    scanSubstreamInfo 0
    pure (.again ())
  | _ => do
    let _ ← Property.parse
    skipSection
    pure (.again ())

def usesExternalFolderData : NomParser Bool := loop (.error .eof) usesExternalTurn ()

end StreamInfo

def scanStreamTurn (externalData : List Slice) (numFolders : Nat) : NomParser (Turn Nat Unit) := do
  match ← peek Property.parse with
  | .END => do
    let _ ← Property.parse
    pure (.done ())
  | .PackInfo => do
    scanPackInfo
    pure (.again numFolders)
  | .UnPackInfo => do
    let nf ← scanUnpackInfoWithExternal externalData
    pure (.again nf)
  | .SubStreamsInfo => do
    scanSubstreamInfo numFolders
    pure (.again numFolders)
  | _ => do
    let _ ← Property.parse
    skipSection
    pure (.again numFolders)

def scanStreamInfoWithExternal (externalData : List Slice) : NomParser Unit :=
  loop (.error .eof) (scanStreamTurn externalData) 0

end R7z
