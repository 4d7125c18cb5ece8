import R7z.Parsers

/-! Coders and folders: the parser that builds a folder and the scanner that only counts its output
streams. -/

namespace R7z

open Wire Wire.Parser

structure CodecId where
  bytes : List UInt8
  length_le : bytes.length ≤ 15
deriving DecidableEq, Repr

structure CoderInfo where
  codecId : CodecId
  numInStreams : UInt64
  numOutStreams : UInt64
  properties : Option (List UInt8)
deriving DecidableEq, Repr

structure CoderInfoRef where
  codecId : Slice
  numInStreams : UInt64
  numOutStreams : UInt64
  properties : Option Slice

def CoderInfoRef.streams (isComplex : Bool) : NomParser (UInt64 × UInt64) :=
  if isComplex then do
    let numIn ← sevenzipVaruint64Decode
    let numOut ← sevenzipVaruint64Decode
    pure (numIn, numOut)
  else pure (1, 1)

def CoderInfoRef.attributes (hasAttributes : Bool) : NomParser (Option Slice) :=
  if hasAttributes then do
    let propSize ← sevenzipVaruint64Decode
    let properties ← takeBytes propSize.toNat
    pure (some properties)
  else pure none

def CoderInfoRef.parse : NomParser CoderInfoRef := do
  let flags ← leU8
  let codecId ← takeBytes (flags &&& 0x0f).toNat
  let (numInStreams, numOutStreams) ← CoderInfoRef.streams (flags &&& 0x10 != 0)
  let properties ← CoderInfoRef.attributes (flags &&& 0x20 != 0)
  pure { codecId, numInStreams, numOutStreams, properties }

def CoderInfo.parse : NomParser CoderInfo := do
  let parsed ← CoderInfoRef.parse
  if h : parsed.codecId.bytes.length ≤ 15 then
    pure { codecId := ⟨parsed.codecId.bytes, h⟩, numInStreams := parsed.numInStreams,
           numOutStreams := parsed.numOutStreams,
           properties := parsed.properties.map Slice.bytes }
  else fail (.error .tooLarge)

def MAX_FOLDER_STREAMS : Nat := 16384

def checkedCoderCount (count : UInt64) : NomParser Nat :=
  if 1 ≤ count.toNat ∧ count.toNat ≤ MAX_FOLDER_STREAMS then pure count.toNat
  else fail (.failure .tooLarge)

structure FolderStreamCounts where
  inputs : Nat
  outputs : Nat
deriving DecidableEq, Repr

namespace FolderStreamCounts

def default : FolderStreamCounts := ⟨0, 0⟩

/-- The counts stay far below a `u64`, so the checked additions fail only past the limit. -/
def addCoder (counts : FolderStreamCounts) (numInputs numOutputs : UInt64) :
    NomParser FolderStreamCounts :=
  let inputs := counts.inputs + numInputs.toNat
  let outputs := counts.outputs + numOutputs.toNat
  if inputs ≥ 2 ^ 64 ∨ outputs ≥ 2 ^ 64 then fail (.failure .tooLarge)
  else if inputs > MAX_FOLDER_STREAMS ∨ outputs > MAX_FOLDER_STREAMS then fail (.failure .tooLarge)
  else pure ⟨inputs, outputs⟩

def layout (counts : FolderStreamCounts) : NomParser (Nat × Nat) :=
  if counts.outputs < 1 then fail (.failure .verify)
  else
    let numBindPairs := counts.outputs - 1
    if counts.inputs < numBindPairs then fail (.failure .verify)
    else pure (numBindPairs, counts.inputs - numBindPairs)

end FolderStreamCounts

def checkedStreamIndex (index : UInt64) (total : Nat) : NomParser Unit :=
  if index.toNat < total then pure () else fail (.failure .verify)

def streamIndex (total : Nat) : NomParser UInt64 := do
  let idx ← sevenzipVaruint64Decode
  checkedStreamIndex idx total
  pure idx

def bindPair (counts : FolderStreamCounts) : NomParser (UInt64 × UInt64) := do
  let inIdx ← streamIndex counts.inputs
  let outIdx ← streamIndex counts.outputs
  pure (inIdx, outIdx)

def scanCoder (counts : FolderStreamCounts) : NomParser FolderStreamCounts := do
  let coder ← CoderInfoRef.parse
  counts.addCoder coder.numInStreams coder.numOutStreams

def scanFolder : NomParser Nat := do
  let numCoders ← sevenzipVaruint64Decode
  let numCoders ← checkedCoderCount numCoders
  let counts ← iterate scanCoder numCoders .default
  let (numBindPairs, numPacked) ← counts.layout
  skipMany (bindPair counts) numBindPairs
  if numPacked ≠ 1 then
    skipMany (streamIndex counts.inputs) numPacked
    pure counts.outputs
  else pure counts.outputs

structure Folder where
  coders : List CoderInfo
  bindPairs : List (UInt64 × UInt64)
  packedIndices : List UInt64
deriving DecidableEq, Repr

namespace Folder

def totalOutStreams (folder : Folder) : Nat :=
  (folder.coders.map fun c => c.numOutStreams.toNat).sum

def parseCoder (acc : FolderStreamCounts × List CoderInfo) :
    NomParser (FolderStreamCounts × List CoderInfo) := do
  let coder ← CoderInfo.parse
  let counts ← acc.1.addCoder coder.numInStreams coder.numOutStreams
  pure (counts, acc.2 ++ [coder])

def parse : NomParser Folder := do
  let numCoders ← sevenzipVaruint64Decode
  let numCoders ← checkedCoderCount numCoders
  let (counts, coders) ← iterate parseCoder numCoders (.default, [])
  let (numBindPairs, numPacked) ← counts.layout
  let bindPairs ← count (bindPair counts) numBindPairs
  -- The indices of the packed streams are only written when there is not exactly one.
  if numPacked ≠ 1 then
    let packedIndices ← count (streamIndex counts.inputs) numPacked
    pure { coders, bindPairs, packedIndices }
  else pure { coders, bindPairs, packedIndices := [] }

end Folder

section
variable {W : Window}

theorem CoderInfoRef.streams_scans (c : Bool) : Scans W (CoderInfoRef.streams c) :=
  .ite (fun _ => sevenzipVaruint64Decode_scans.bind fun _ =>
    sevenzipVaruint64Decode_scans.bind fun _ => .pure _) fun _ => .pure _

theorem FolderStreamCounts.addCoder_scans (counts : FolderStreamCounts) (i o : UInt64) :
    Scans W (counts.addCoder i o) :=
  .ite (fun _ => .fail _) fun _ => .ite (fun _ => .fail _) fun _ => .pure _

theorem FolderStreamCounts.layout_scans (counts : FolderStreamCounts) : Scans W counts.layout :=
  .ite (fun _ => .fail _) fun _ => .ite (fun _ => .fail _) fun _ => .pure _

theorem checkedCoderCount_scans (n : UInt64) : Scans W (checkedCoderCount n) :=
  .ite (fun _ => .pure _) fun _ => .fail _

theorem streamIndex_scans (total : Nat) : Scans W (streamIndex total) :=
  sevenzipVaruint64Decode_scans.bind fun idx =>
    Scans.bind (p := checkedStreamIndex idx total) (.ite (fun _ => .pure ()) fun _ => .fail _)
      fun _ => .pure idx

theorem bindPair_scans (counts : FolderStreamCounts) : Scans W (bindPair counts) :=
  (streamIndex_scans _).bind fun _ => (streamIndex_scans _).bind fun _ => .pure _

end

end R7z
