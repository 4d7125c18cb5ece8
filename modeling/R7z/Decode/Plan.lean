import R7z.Decode.Budget
import R7z.Decode.Coders

/-! From the layout of a folder to a running decoder: the coders in their order with the sizes of their
outputs, what each of them asks of the budget, and the reader at the end of the chain. -/

namespace R7z

open Effect Effect.Machine

/-- The declared sizes of all outputs, and the size of the last one by itself. -/
structure CoderOutputSizes where
  declared : List UInt64
  finalIndex : Nat
  finalSize : UInt64
deriving DecidableEq, Repr

namespace CoderOutputSizes

def complete (folder : Folder) (graph : FolderGraph) (finalSize : UInt64) (declared : List UInt64) :
    Except R7zError CoderOutputSizes :=
  if declared.length ≠ folder.totalOutStreams then .error .invalidFolderGraph
  else if (declared[graph.finalOutput]?).any fun size => size ≠ finalSize then .error .parse
  else .ok { declared, finalIndex := graph.finalOutput, finalSize }

def get (sizes : CoderOutputSizes) (index : Nat) : OutputSize :=
  if index = sizes.finalIndex then .Known sizes.finalSize
  else
    match sizes.declared[index]? with
    | some size => .Known size
    | none => .Unknown

end CoderOutputSizes

structure SizedCoder where
  coder : CoderPlan
  output : OutputSize
deriving DecidableEq, Repr

structure DecodeStep where
  coder : CoderPlan
  input : OutputSize
  output : OutputSize
deriving DecidableEq, Repr

def SizedCoder.bindSize (step : SizedCoder) (input : OutputSize) : Except R7zError DecodeStep := do
  let output ← if step.coder.preservesSize then step.output.reconcile input else .ok step.output
  return { coder := step.coder, input, output }

/-- How the output of a coder ends: at its size, or where the codec itself says so as well. -/
inductive OutputEnd where
  | Sized
  | Terminated
deriving DecidableEq, Repr

structure CheckedReader (δ : Type) where
  inner : δ
  bound : Option (Nat × OutputEnd)

inductive FolderReader (δ : Type) where
  | Stream (reader : CheckedReader δ)
  | Buffered (bytes : List UInt8)

/-- What decoding rests on: the codecs, the packed ranges of the source, the checksum, and the user who
may cancel. `ω` is whatever they keep between calls, `δ` a reader of theirs. A copy that has not ended
after `copyTurns` reads is given up. -/
structure Environment (ω δ : Type) where
  cancels : ω → Bool × ω
  progress : UInt64 → ω → Bool × ω
  openRange : Nat → Nat → Option UInt32 → ω → Except R7zError (δ × Nat) × ω
  memory : DecoderMemory
  openCoder : CoderPlan → OutputSize → OutputSize → Option String → CheckedReader δ → ω →
    Except R7zError δ × ω
  openBcj2 : CheckedReader δ → CheckedReader δ → CheckedReader δ → CheckedReader δ → Nat → ω →
    Except R7zError δ × ω
  finishBcj2 : δ → ω → Except R7zError Unit × ω
  read : (n : Nat) → δ → ω → Except IoError { bytes : List UInt8 // bytes.length ≤ n } × δ × ω
  crc32 : List UInt8 → UInt32
  copyTurns : Nat

def unreadable : Environment Unit Unit where
  cancels := fun _ => (false, ())
  progress := fun _ _ => (false, ())
  openRange := fun _ _ _ _ => (.error .io, ())
  memory := { lzma := fun _ _ => none, lzma2 := fun _ => 0 }
  openCoder := fun _ _ _ _ _ _ => (.ok (), ())
  openBcj2 := fun _ _ _ _ _ _ => (.ok (), ())
  finishBcj2 := fun _ _ => (.ok (), ())
  read := fun _ _ _ => (.ok ⟨[], Nat.zero_le _⟩, (), ())
  crc32 := fun _ => 0
  copyTurns := 1

def copying (memory : List UInt8) : Environment Unit (List UInt8) where
  cancels := fun _ => (false, ())
  progress := fun _ _ => (false, ())
  openRange := fun start length _ _ => (.ok ((memory.drop start).take length, length), ())
  memory := { lzma := fun _ _ => none, lzma2 := fun _ => 0 }
  openCoder := fun _ _ _ _ reader _ => (.ok reader.inner, ())
  openBcj2 := fun _ _ _ _ _ _ => (.error .decompression, ())
  finishBcj2 := fun _ _ => (.ok (), ())
  read := fun n left _ => (.ok ⟨left.take n, List.length_take_le n left⟩, left.drop n, ())
  crc32 := fun _ => 0
  copyTurns := 8

/-! CRC-32, bit by bit -/

def Crc32.shift (crc : UInt32) : UInt32 :=
  if crc &&& 1 = 0 then crc >>> 1 else (crc >>> 1) ^^^ 0xedb88320

def Crc32.update (crc : UInt32) (byte : UInt8) : UInt32 := Crc32.shift^[8] (crc ^^^ byte.toUInt32)

def Crc32.hash (bytes : List UInt8) : UInt32 := bytes.foldl Crc32.update 0xffffffff ^^^ 0xffffffff

example : Crc32.hash [0x31, 0x32, 0x33, 0x34, 0x35, 0x36, 0x37, 0x38, 0x39] = 0xcbf43926 := by
  decide +kernel

def checking (memory : List UInt8) : Environment Unit (List UInt8) :=
  { copying memory with crc32 := Crc32.hash }

section
variable {ω δ : Type}

def Operation.external {α : Type} (call : ω → Except R7zError α × ω) : OperationM ω α := fun op =>
  ((call op.outside).1, { op with outside := (call op.outside).2 })

variable (env : Environment ω δ)

/-! Cancellation and progress -/

def check : OperationM ω Unit := do
  let op ← get
  if op.budget.monitor.hasControl then do
    let asked ← Operation.external fun outside => (.ok (env.cancels outside).1, (env.cancels outside).2)
    modify fun op => { op with cancelled := op.cancelled || asked }
    let op ← get
    if op.cancelled then fail .cancelled else pure ()
  else pure ()

/-- Bytes have been processed; every so often they are reported, and the callback may cancel. -/
def advance (bytes : Nat) : OperationM ω Unit := do
  let op ← get
  if op.budget.monitor.hasControl then do
    let monitor := op.budget.monitor
    let processed := saturatingAdd monitor.processed (UInt64.ofNat bytes)
    if CHECK_INTERVAL ≤ (processed - monitor.reported).toNat then do
      modify fun op => { op with
        budget := { op.budget with monitor := { monitor with processed, reported := processed } } }
      let stop ← Operation.external fun outside => (.ok (env.progress processed outside).1,
        (env.progress processed outside).2)
      modify fun op => { op with cancelled := op.cancelled || stop }
      check env
    else do
      modify fun op => { op with budget := { op.budget with monitor := { monitor with processed } } }
      check env
  else pure ()

end

/-! The topology of a folder -/

structure Bcj2Coder where
  index : CoderIndex
  output : OutputStreamIndex
deriving DecidableEq, Repr

structure Bcj2Channel where
  coders : List Bcj2Coder
  packed : PackedStreamIndex
deriving DecidableEq, Repr

structure Bcj2Layout where
  main : Bcj2Channel
  call : Bcj2Channel
  jump : Bcj2Channel
  control : Bcj2Channel
deriving DecidableEq, Repr

namespace FolderGraph

/-- Back from an input to its packed stream. The graph has no cycle, so there are no more turns than
coders. -/
def bcj2Channel (graph : FolderGraph) (folder : Folder) (bcj2 : CoderIndex) :
    Nat → InputStreamIndex → List Bcj2Coder → Except R7zError Bcj2Channel
  | 0, _, _ => .error .invalidFolderGraph
  | turns + 1, input, coders => do
    match ← orInvalid graph.inputSources[input]? with
    | none => do
      let packed ← orInvalid (graph.packedInputs.idxOf? input)
      return { coders := coders.reverse, packed }
    | some output => do
      let coder ← orInvalid graph.outputOwners[output]?
      let info ← orInvalid folder.coders[coder]?
      let arity ← StreamArity.tryFrom info
      if coder = bcj2 ∨ arity.inputs ≠ 1 ∨ arity.outputs ≠ 1 then .error .invalidFolderGraph
      else do
        let input ← orInvalid (graph.inputOwners.idxOf? coder)
        bcj2Channel graph folder bcj2 turns input (coders ++ [{ index := coder, output }])

def positions {α : Type} (p : α → Bool) (l : List α) : List Nat :=
  (l.zipIdx.filter fun item => p item.1).map Prod.snd

def bcj2Layout (graph : FolderGraph) (folder : Folder) : Except R7zError (Option Bcj2Layout) :=
  match positions (fun coder => coder.codecId.bytes == SevenZMethod.id .Bcj2) folder.coders with
  | [] => .ok none
  | [index] =>
    if graph.outputOwners[graph.finalOutput]? ≠ some index then .error .invalidFolderGraph
    else
      match positions (· == index) graph.inputOwners with
      | [main, call, jump, control] => do
        let channel := fun input => graph.bcj2Channel folder index (folder.coders.length + 1) input []
        let main ← channel main
        let call ← channel call
        let jump ← channel jump
        let control ← channel control
        let coders := [main, call, jump, control].flatMap fun channel =>
          channel.coders.map Bcj2Coder.index
        if coders.Nodup ∧ ∀ coder ∈ List.range folder.coders.length, coder = index ∨ coder ∈ coders then
          return some { main, call, jump, control }
        else .error .invalidFolderGraph
      | _ => .error .invalidFolderGraph
  | _ => .error .invalidFolderGraph

end FolderGraph

inductive DecoderTopology where
  | Chain
  | Bcj2 (layout : Bcj2Layout)
deriving DecidableEq, Repr

def decoderTopology (folder : Folder) (graph : FolderGraph) : Except R7zError DecoderTopology := do
  match ← graph.bcj2Layout folder with
  | some layout => do
    let bcj2 ← orInvalid (folder.coders.find? fun coder =>
      coder.codecId.bytes == SevenZMethod.id .Bcj2)
    noProperties bcj2
    return .Bcj2 layout
  | none =>
    match folder.coders.find? fun coder => (methodFromId coder.codecId.bytes).isNone with
    | some coder => .error (.unsupportedCodec coder.codecId.bytes)
    | none =>
      if folder.coders.all fun coder => coder.numInStreams = 1 ∧ coder.numOutStreams = 1 then
        return .Chain
      else .error .invalidFolderGraph

/-! Plans -/

def MAX_FOLDER_CODERS : Nat := 64
def MAX_BCJ2_OUTPUT_BYTES : Nat := 256 * 1024 * 1024
def MAX_BCJ2_WORKING_BYTES : Nat := 512 * 1024 * 1024
def BCJ2_READER_WORKING_SET_BYTES : Nat := 4 * 256 * 1024
def MAX_AES_NUM_CYCLES_POWER : UInt8 := 24

structure Bcj2Slots where
  main : Nat
  call : Nat
  jump : Nat
  control : Nat
deriving DecidableEq, Repr

inductive Topology where
  | Chain (steps : List DecodeStep)
  | Bcj2 (main call jump control : List DecodeStep) (slots : Bcj2Slots) (outputSize : Nat)
deriving DecidableEq, Repr

structure DecoderPlan where
  topology : Topology
  packedSizes : List UInt64
deriving DecidableEq, Repr

def checkedMemory (a b : Nat) : Except R7zError Nat :=
  if a + b < usizeLimit then .ok (a + b) else .error .decompression

def bcj2OutputSize (unpackSize : UInt64) : Except R7zError Nat :=
  if unpackSize.toNat > MAX_BCJ2_OUTPUT_BYTES then
    .error (.resourceLimitExceeded "BCJ2 output" (UInt64.ofNat MAX_BCJ2_OUTPUT_BYTES))
  else .ok unpackSize.toNat

def ensureBcj2WorkingBudget (outputSize decoderMemory : Nat) : Except R7zError Unit := do
  let committed ← checkedMemory outputSize decoderMemory
  if committed > MAX_BCJ2_WORKING_BYTES then
    .error (.resourceLimitExceeded "BCJ2 working buffers" (UInt64.ofNat MAX_BCJ2_WORKING_BYTES))
  else .ok ()

def packedSlotSize (packedSizes : List UInt64) (slot : Nat) : Except R7zError UInt64 :=
  orInvalid packedSizes[slot]?

def bindChain : OutputSize → List SizedCoder → Except R7zError (List DecodeStep)
  | _, [] => .ok []
  | input, step :: steps => do
    let bound ← step.bindSize input
    let rest ← bindChain bound.output steps
    return bound :: rest

section
variable {ω δ : Type} (env : Environment ω δ)

/-- The coders from the last to the first. A filter that keeps the length tells the coder before it
its size. -/
def sizeChain (folder : Folder) (sizes : CoderOutputSizes) :
    List CoderIndex → OutputSize → Except R7zError (List SizedCoder)
  | [], _ => .ok []
  | index :: indices, nextInput => do
    let coder ← orInvalid folder.coders[index]?
    let output ← (sizes.get index).reconcile nextInput
    let plan ← CoderPlan.compile env.memory coder output
    let rest ← sizeChain folder sizes indices (if plan.preservesSize then output else .Unknown)
    return { coder := plan, output } :: rest

def totalWorkingSet (steps : List DecodeStep) : Except R7zError Nat :=
  steps.foldlM (fun total step => do
    let bytes ← step.coder.workingSet env.memory
    checkedMemory total bytes) 0

def chainSteps (folder : Folder) (graph : FolderGraph) (sizes : CoderOutputSizes)
    (packedSizes : List UInt64) : Except R7zError (List DecodeStep) :=
  match packedSizes with
  | [packedSize] => do
    let steps ← sizeChain env folder sizes graph.executionOrder.reverse .Unknown
    bindChain (.Known packedSize) steps.reverse
  | _ => .error .invalidFolderGraph

def compileChannel (folder : Folder) (sizes : CoderOutputSizes) :
    OutputSize → List Bcj2Coder → Except R7zError (List DecodeStep)
  | _, [] => .ok []
  | input, channelCoder :: rest => do
    let coder ← orInvalid folder.coders[channelCoder.index]?
    let output := sizes.get channelCoder.output
    let plan ← CoderPlan.compile env.memory coder output
    let step ← SizedCoder.bindSize { coder := plan, output } input
    let steps ← compileChannel folder sizes step.output rest
    return step :: steps

def channelOutput (packedSizes : List UInt64) (steps : List DecodeStep) (slot : Nat) :
    Except R7zError UInt64 :=
  match steps.getLast? with
  | none => packedSlotSize packedSizes slot
  | some step => step.output.require

def addOutput (total size : UInt64) : Except R7zError UInt64 :=
  if total.toNat + size.toNat < 2 ^ 64 then .ok (total + size) else .error .decompression

def bcj2Steps (folder : Folder) (layout : Bcj2Layout) (unpackSize : UInt64)
    (sizes : CoderOutputSizes) (packedSizes : List UInt64) : Except R7zError (Topology × Nat) := do
  let outputSize ← bcj2OutputSize unpackSize
  let channel := fun (channel : Bcj2Channel) => do
    let input ← packedSlotSize packedSizes channel.packed
    compileChannel env folder sizes (.Known input) channel.coders
  let slots : Bcj2Slots :=
    { main := layout.main.packed, call := layout.call.packed, jump := layout.jump.packed,
      control := layout.control.packed }
  let main ← channel layout.main
  let call ← channel layout.call
  let jump ← channel layout.jump
  let control ← channel layout.control
  -- the control channel counts for nothing: the other three make up the output
  let mainOutput ← channelOutput packedSizes main slots.main
  let declared ← addOutput 0 mainOutput
  let callOutput ← channelOutput packedSizes call slots.call
  let declared ← addOutput declared callOutput
  let jumpOutput ← channelOutput packedSizes jump slots.jump
  let declared ← addOutput declared jumpOutput
  if declared ≠ unpackSize then .error .decompression
  else do
    let memory ← totalWorkingSet env (main ++ call ++ jump ++ control)
    let memory ← checkedMemory memory BCJ2_READER_WORKING_SET_BYTES
    ensureBcj2WorkingBudget outputSize memory
    let memory ← checkedMemory memory outputSize
    return (.Bcj2 main call jump control slots outputSize, memory)

def planTopology (folder : Folder) (graph : FolderGraph) (unpackSize : UInt64)
    (sizes : CoderOutputSizes) (packedSizes : List UInt64) : Except R7zError (Topology × Nat) :=
  if folder.coders.length > MAX_FOLDER_CODERS then .error (.limitExceeded "folder coder count")
  else if graph.packedStreamCount ≠ packedSizes.length then .error .invalidFolderGraph
  else do
    match ← decoderTopology folder graph with
    | .Chain => do
      let steps ← chainSteps env folder graph sizes packedSizes
      let memory ← totalWorkingSet env steps
      return (.Chain steps, memory)
    | .Bcj2 layout => bcj2Steps env folder layout unpackSize sizes packedSizes

def DecoderPlan.compileWithBudget (folder : Folder) (graph : FolderGraph) (unpackSize : UInt64)
    (sizes packedSizes : List UInt64) : OperationM ω DecoderPlan := do
  let sizes ← ofExcept (CoderOutputSizes.complete folder graph unpackSize sizes)
  let (topology, memory) ← ofExcept (planTopology env folder graph unpackSize sizes packedSizes)
  Operation.admitDecoderWorkingSet memory
  pure { topology, packedSizes }

end

/-! Running decoders -/

structure BoundInput (δ : Type) where
  input : δ
  coders : List DecodeStep

inductive BoundTopology (δ : Type) where
  | Chain (steps : List DecodeStep) (input : δ)
  | Bcj2 (main call jump control : BoundInput δ) (outputSize : Nat)

structure ReadyDecoder (δ : Type) where
  topology : BoundTopology δ

def takeInput {δ : Type} (inputs : List (Option δ)) (slot : Nat) : Except R7zError (δ × List (Option δ)) := do
  let input ← orInvalid inputs[slot]?.join
  return (input, inputs.set slot none)

namespace DecoderPlan

variable {δ : Type}

def bind (plan : DecoderPlan) (inputs : List (δ × Nat)) : Except R7zError (ReadyDecoder δ) :=
  if inputs.length ≠ plan.packedSizes.length then .error .invalidFolderGraph
  else if (inputs.zip plan.packedSizes).any fun pair => pair.1.2 ≠ pair.2.toNat then .error .parse
  else
    let inputs := inputs.map fun input => some input.1
    match plan.topology with
    | .Chain steps => do
      let (input, _) ← takeInput inputs 0
      return { topology := .Chain steps input }
    | .Bcj2 main call jump control slots outputSize => do
      let (mainInput, inputs) ← takeInput inputs slots.main
      let (callInput, inputs) ← takeInput inputs slots.call
      let (jumpInput, inputs) ← takeInput inputs slots.jump
      let (controlInput, _) ← takeInput inputs slots.control
      return { topology := .Bcj2 ⟨mainInput, main⟩ ⟨callInput, call⟩ ⟨jumpInput, jump⟩
                 ⟨controlInput, control⟩ outputSize }

end DecoderPlan

/-- The size of output that is decoded into memory before the first read: that of BCJ2, and that of a
cipher when nothing behind it changes the length. -/
def ReadyDecoder.eagerOutputSize {δ : Type} (decoder : ReadyDecoder δ) : Option UInt64 :=
  match decoder.topology with
  | .Bcj2 _ _ _ _ outputSize => some (UInt64.ofNat outputSize)
  | .Chain steps _ =>
    steps.zipIdx.reverse.findSome? fun (step, index) =>
      match step.coder, step.output with
      | .Aes _, .Known size =>
        if (steps.drop (index + 1)).all fun following => following.coder.preservesSize then some size
        else none
      | _, _ => none

section
variable {ω δ : Type} (env : Environment ω δ)

def kdfCycles (numCyclesPower : UInt8) : Except R7zError UInt64 :=
  if numCyclesPower = 0x3F then .ok 0
  else if numCyclesPower ≤ MAX_AES_NUM_CYCLES_POWER then .ok (UInt64.ofNat (2 ^ numCyclesPower.toNat))
  else .error .decompression

/-- What a coder asks for before it is opened: a cipher needs a password, and its key is charged. -/
def CoderPlan.admit (password : Option String) : CoderPlan → OperationM ω Unit
  | .Aes properties =>
    match password with
    | none => fail .passwordRequired
    | some _ => do
      let cycles ← ofExcept (kdfCycles properties.numCyclesPower)
      Operation.chargeKdfCycles cycles
  | _ => pure ()

def CoderPlan.outputEnd : CoderPlan → OutputEnd
  | .Ppmd .. => .Sized
  | _ => .Terminated

def DecodeStep.open (step : DecodeStep) (password : Option String) (input : CheckedReader δ) :
    OperationM ω (CheckedReader δ) := do
  step.coder.admit password
  let inner ← Operation.external (env.openCoder step.coder step.input step.output password input)
  match step.output with
  | .Known size => pure { inner, bound := some (size.toNat, step.coder.outputEnd) }
  | .Unknown => pure { inner, bound := none }

def openSteps (password : Option String) : List DecodeStep → CheckedReader δ →
    OperationM ω (CheckedReader δ)
  | [], reader => pure reader
  | step :: steps, reader => do
    let reader ← step.open env password reader
    openSteps password steps reader

def BoundInput.open (input : BoundInput δ) (password : Option String) : OperationM ω (CheckedReader δ) :=
  openSteps env password input.coders { inner := input.input, bound := none }

def readBcj2 (n : Nat) (reader : δ) : OperationM ω (List UInt8 × δ) :=
  Operation.external fun outside =>
    match env.read n reader outside with
    | (.ok bytes, reader, outside) => (.ok (bytes.val, reader), outside)
    | (.error _, _, outside) => (.error .decompression, outside)

def fillBcj2 (outputSize : Nat) : Nat → δ → List UInt8 → OperationM ω (List UInt8 × δ)
  | 0, reader, output => pure (output, reader)
  | turns + 1, reader, output =>
    if output.length < outputSize then do
      check env
      let op ← get
      let (bytes, reader) ← readBcj2 env (op.budget.monitor.bufferSize (outputSize - output.length)) reader
      advance env bytes.length
      if bytes.isEmpty then pure (output ++ bytes, reader)
      else fillBcj2 outputSize turns reader (output ++ bytes)
    else pure (output, reader)

def ReadyDecoder.start (decoder : ReadyDecoder δ) (password : Option String) :
    OperationM ω (FolderReader δ) :=
  match decoder.topology with
  | .Chain steps input => do
    let reader ← openSteps env password steps { inner := input, bound := none }
    pure (.Stream reader)
  | .Bcj2 main call jump control outputSize => do
    check env
    let main ← main.open env password
    let call ← call.open env password
    let jump ← jump.open env password
    let control ← control.open env password
    -- the output of BCJ2 is put together in memory before any of it is handed out
    let reader ← Operation.external (env.openBcj2 main call jump control outputSize)
    let (output, reader) ← fillBcj2 env outputSize (outputSize + 1) reader []
    if output.length ≠ outputSize then fail .decompression
    else do
      Operation.external (env.finishBcj2 reader)
      check env
      pure (.Buffered output)

/-! Reads -/

def CheckedReader.read (n : Nat) (reader : CheckedReader δ) (outside : ω) :
    Except IoError (List UInt8) × CheckedReader δ × ω :=
  match reader.bound with
  | none =>
    match env.read n reader.inner outside with
    | (.ok bytes, inner, outside) => (.ok bytes.val, { reader with inner }, outside)
    | (.error e, inner, outside) => (.error e, { reader with inner }, outside)
  | some (remaining, fin) =>
    if n = 0 then (.ok [], reader, outside)
    else if remaining = 0 then
      match fin with
      | .Sized => (.ok [], reader, outside)
      | .Terminated =>
        -- one byte more tells whether the decoder stops where it should
        match env.read 1 reader.inner outside with
        | (.ok bytes, inner, outside) =>
          (if bytes.val.isEmpty then .ok [] else .error .invalidData, { reader with inner }, outside)
        | (.error e, inner, outside) => (.error e, { reader with inner }, outside)
    else
      match env.read (min remaining n) reader.inner outside with
      | (.ok bytes, inner, outside) =>
        (if bytes.val.isEmpty then .error .unexpectedEof else .ok bytes.val,
          { inner, bound := some (remaining - bytes.val.length, fin) }, outside)
      | (.error e, inner, outside) => (.error e, { reader with inner }, outside)

def FolderReader.read (n : Nat) (reader : FolderReader δ) (outside : ω) :
    Except IoError (List UInt8) × FolderReader δ × ω :=
  match reader with
  | .Stream reader =>
    let (result, reader, outside) := reader.read env n outside
    (result, .Stream reader, outside)
  | .Buffered bytes => (.ok (bytes.take n), .Buffered (bytes.drop n), outside)

end

end R7z
