import R7z.PackInfo
import R7z.Headers

/-! The coders of a folder as a graph: which output feeds which input, in which order they run, and
which inputs are packed streams. -/

namespace R7z

open Wire Wire.Parser

inductive SevenZMethod where
  | Copy | Lzma | Lzma2 | BZip2 | Ppmd | Deflate | Deflate64 | Bcj | Bcj2 | Arm | Arm64 | ArmThumb
  | Ia64 | Ppc | Sparc | Riscv | Delta | Swap2 | Swap4 | Zstd | Brotli | Lz4 | Lz5 | Lizard
  | FastLzma2 | Lzham | SevenZAes | Aes256Cbc
deriving DecidableEq, Repr

/-- The identifiers on disk; the fast variant of LZMA2 shares that of LZMA2. -/
def SevenZMethod.id : SevenZMethod → List UInt8
  | Copy => [0x00]
  | Lzma => [0x03, 0x01, 0x01]
  | Lzma2 => [0x21]
  | BZip2 => [0x04, 0x02, 0x02]
  | Ppmd => [0x03, 0x04, 0x01]
  | Deflate => [0x04, 0x01, 0x08]
  | Deflate64 => [0x04, 0x01, 0x09]
  | Bcj => [0x03, 0x03, 0x01, 0x03]
  | Bcj2 => [0x03, 0x03, 0x01, 0x1B]
  | Arm => [0x03, 0x03, 0x05, 0x01]
  | Arm64 => [0x0A]
  | ArmThumb => [0x03, 0x03, 0x07, 0x01]
  | Ia64 => [0x03, 0x03, 0x04, 0x01]
  | Ppc => [0x03, 0x03, 0x02, 0x05]
  | Sparc => [0x03, 0x03, 0x08, 0x05]
  | Riscv => [0x0B]
  | Delta => [0x03]
  | Swap2 => [0x02, 0x03, 0x02]
  | Swap4 => [0x02, 0x03, 0x04]
  | Zstd => [0x04, 0xF7, 0x11, 0x01]
  | Brotli => [0x04, 0xF7, 0x11, 0x02]
  | Lz4 => [0x04, 0xF7, 0x11, 0x04]
  | Lz5 => [0x04, 0xF7, 0x11, 0x05]
  | Lizard => [0x04, 0xF7, 0x11, 0x06]
  | FastLzma2 => [0x21]
  | Lzham => [0x04, 0xF7, 0x10, 0x01]
  | SevenZAes => [0x06, 0xF1, 0x07, 0x01]
  | Aes256Cbc => [0x06, 0xF0, 0x01, 0x81]

def SevenZMethod.registry : List SevenZMethod :=
  [.Copy, .Lzma, .Lzma2, .BZip2, .Ppmd, .Deflate, .Deflate64, .Bcj, .Bcj2, .Arm, .Arm64, .ArmThumb,
   .Ia64, .Ppc, .Sparc, .Riscv, .Delta, .Swap2, .Swap4, .Zstd, .Brotli, .Lz4, .Lz5, .Lizard,
   .FastLzma2, .Lzham, .SevenZAes, .Aes256Cbc]

def SevenZMethod.streamArity : SevenZMethod → UInt64 × UInt64
  | Bcj2 => (4, 1)
  | _ => (1, 1)

def methodFromId (id : List UInt8) : Option SevenZMethod :=
  SevenZMethod.registry.find? fun method => method.id == id

abbrev CoderIndex := Nat
abbrev InputStreamIndex := Nat
abbrev OutputStreamIndex := Nat
abbrev PackedStreamIndex := Nat

structure StreamArity where
  inputs : Nat
  outputs : Nat
deriving DecidableEq, Repr

def StreamArity.tryFrom (coder : CoderInfo) : Except R7zError StreamArity :=
  let checked : Except R7zError StreamArity :=
    if 1 ≤ coder.numInStreams.toNat ∧ coder.numInStreams.toNat ≤ MAX_FOLDER_STREAMS ∧
        1 ≤ coder.numOutStreams.toNat ∧ coder.numOutStreams.toNat ≤ MAX_FOLDER_STREAMS then
      .ok ⟨coder.numInStreams.toNat, coder.numOutStreams.toNat⟩
    else .error .invalidFolderGraph
  match (methodFromId coder.codecId.bytes).map SevenZMethod.streamArity with
  | some expected =>
    if (coder.numInStreams, coder.numOutStreams) ≠ expected then .error .invalidFolderGraph else checked
  | none => checked

structure StreamOwners where
  inputs : List CoderIndex
  outputs : List CoderIndex
deriving DecidableEq, Repr

def addArity (totals : Nat × Nat) (arity : StreamArity) : Except R7zError (Nat × Nat) :=
  let inputs := totals.1 + arity.inputs
  let outputs := totals.2 + arity.outputs
  if inputs ≤ MAX_FOLDER_STREAMS ∧ outputs ≤ MAX_FOLDER_STREAMS then .ok (inputs, outputs)
  else .error .invalidFolderGraph

def StreamOwners.fromCoders (coders : List CoderInfo) : Except R7zError StreamOwners := do
  let arities ← coders.mapM StreamArity.tryFrom
  let _ ← arities.foldlM addArity (0, 0)
  return { inputs := (arities.zipIdx).flatMap fun (arity, i) => List.replicate arity.inputs i
           outputs := (arities.zipIdx).flatMap fun (arity, i) => List.replicate arity.outputs i }

structure Bindings where
  boundInputs : List Bool
  boundOutputs : List Bool
  inputSources : List (Option OutputStreamIndex)
  edges : List (List CoderIndex)
  indegree : List Nat
deriving DecidableEq, Repr

def orInvalid {α : Type} (o : Option α) : Except R7zError α :=
  match o with
  | some a => .ok a
  | none => .error .invalidFolderGraph

def indexFromRaw (raw : UInt64) (total : Nat) : Except R7zError Nat :=
  if raw.toNat < total then .ok raw.toNat else .error .invalidFolderGraph

namespace Bindings

def bind (owners : StreamOwners) (bindings : Bindings) (pair : UInt64 × UInt64) :
    Except R7zError Bindings := do
  let input ← indexFromRaw pair.1 owners.inputs.length
  let output ← indexFromRaw pair.2 owners.outputs.length
  let inputBound ← orInvalid bindings.boundInputs[input]?
  let outputBound ← orInvalid bindings.boundOutputs[output]?
  if inputBound || outputBound then .error .invalidFolderGraph
  else
    let source ← orInvalid owners.outputs[output]?
    let target ← orInvalid owners.inputs[input]?
    -- a coder may not feed itself
    if source = target then .error .invalidFolderGraph
    else
      let targets ← orInvalid bindings.edges[source]?
      let degree ← orInvalid bindings.indegree[target]?
      return { boundInputs := bindings.boundInputs.set input true
               boundOutputs := bindings.boundOutputs.set output true
               inputSources := bindings.inputSources.set input (some output)
               edges := bindings.edges.set source (targets ++ [target])
               indegree := bindings.indegree.set target (degree + 1) }

def unbound (owners : StreamOwners) (coderCount : Nat) : Bindings :=
  { boundInputs := List.replicate owners.inputs.length false
    boundOutputs := List.replicate owners.outputs.length false
    inputSources := List.replicate owners.inputs.length none
    edges := List.replicate coderCount []
    indegree := List.replicate coderCount 0 }

def new (pairs : List (UInt64 × UInt64)) (owners : StreamOwners) (coderCount : Nat) :
    Except R7zError Bindings :=
  if owners.outputs.length < 1 ∨ pairs.length ≠ owners.outputs.length - 1 then
    .error .invalidFolderGraph
  else pairs.foldlM (bind owners) (unbound owners coderCount)

def unboundStreams (bound : List Bool) : List Nat :=
  (List.range bound.length).filter fun i => bound[i]? == some false

def finalOutput (bindings : Bindings) : Except R7zError OutputStreamIndex :=
  match unboundStreams bindings.boundOutputs with
  | [output] => .ok output
  | _ => .error .invalidFolderGraph

def explicitInputs (bindings : Bindings) : List UInt64 → List InputStreamIndex →
    Except R7zError (List InputStreamIndex)
  | [], seen => .ok seen
  | raw :: indices, seen => do
    let input ← indexFromRaw raw bindings.boundInputs.length
    if bindings.boundInputs[input]? = some false ∧ input ∉ seen then
      explicitInputs bindings indices (seen ++ [input])
    else .error .invalidFolderGraph

def packedInputs (bindings : Bindings) (explicit : List UInt64) :
    Except R7zError (List InputStreamIndex) :=
  let free := unboundStreams bindings.boundInputs
  match explicit with
  | [] =>
    match free with
    | [input] => .ok [input]
    | _ => .error .invalidFolderGraph
  | _ =>
    if explicit.length = free.length then explicitInputs bindings explicit []
    else .error .invalidFolderGraph

def release (indegree : List Nat) (ready : List CoderIndex) : List CoderIndex →
    Except R7zError (List Nat × List CoderIndex)
  | [] => .ok (indegree, ready)
  | next :: nexts => do
    let degree ← orInvalid indegree[next]?
    if degree = 0 then .error .invalidFolderGraph
    else
      let ready := if degree = 1 then ready ++ [next] else ready
      release (indegree.set next (degree - 1)) ready nexts

def runOrder (edges : List (List CoderIndex)) : Nat → List Nat → List CoderIndex → List CoderIndex →
    Except R7zError (List CoderIndex)
  | turns, indegree, ready, order =>
    match ready.getLast?, turns with
    | none, _ => .ok order
    | some _, 0 => .error .invalidFolderGraph
    | some node, turns + 1 => do
      let nexts ← orInvalid edges[node]?
      let (indegree, ready) ← release indegree ready.dropLast nexts
      runOrder edges turns indegree ready (order ++ [node])

def executionOrder (bindings : Bindings) : Except R7zError (List CoderIndex) := do
  let ready := (List.range bindings.indegree.length).filter fun i => bindings.indegree[i]? == some 0
  let order ← runOrder bindings.edges bindings.indegree.length bindings.indegree ready []
  if order.length = bindings.indegree.length then .ok order else .error .invalidFolderGraph

end Bindings

structure FolderGraph where
  executionOrder : List CoderIndex
  packedInputs : List InputStreamIndex
  finalOutput : OutputStreamIndex
  inputOwners : List CoderIndex
  outputOwners : List CoderIndex
  inputSources : List (Option OutputStreamIndex)
deriving DecidableEq, Repr

def FolderGraph.packedStreamCount (graph : FolderGraph) : Nat := graph.packedInputs.length

def Folder.graph (folder : Folder) : Except R7zError FolderGraph := do
  let owners ← StreamOwners.fromCoders folder.coders
  let bindings ← Bindings.new folder.bindPairs owners folder.coders.length
  let finalOutput ← bindings.finalOutput
  let packedInputs ← bindings.packedInputs folder.packedIndices
  let executionOrder ← bindings.executionOrder
  return { executionOrder, packedInputs, finalOutput, inputOwners := owners.inputs,
           outputOwners := owners.outputs, inputSources := bindings.inputSources }

namespace UnpackInfo

def folderBytes (info : UnpackInfo) (idx : Nat) : Except R7zError Slice :=
  match info.folderOffsets[idx]?, info.folderOffsets[idx + 1]? with
  | some start, some stop =>
    if start > stop ∨ stop.toNat > info.folderData.length then .error .parse
    else .ok ⟨start.toNat, (info.folderData.drop start.toNat).take (stop.toNat - start.toNat)⟩
  | _, _ => .error .parse

def parseFolderWithGraph (info : UnpackInfo) (idx : Nat) : Except R7zError (Folder × FolderGraph) := do
  let bytes ← info.folderBytes idx
  match Folder.parse bytes with
  | .error _ => .error .parse
  | .ok (folder, rest) =>
    if ¬rest.bytes.isEmpty then .error .parse
    else
      let graph ← folder.graph
      return (folder, graph)

def parseFolder (info : UnpackInfo) (idx : Nat) : Except R7zError Folder := do
  let (folder, _) ← info.parseFolderWithGraph idx
  return folder

end UnpackInfo

end R7z
