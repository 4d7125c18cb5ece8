import R7z.Effect.Writer
import R7z.Write.Options

/-! The LZMA2 encoder of a folder: how many workers are admitted, and the choice between the writer with
one worker and the one with several, which may wait until enough input is seen. -/

namespace R7z

open Effect Effect.Machine Effect.Writer
open Options (CompressionOptions LzmaOptions lzmaOptions)
open Write (NonZeroU64)

namespace Lzma2

def MIB : ℕ := 1024 * 1024
def WORKER_OVERHEAD : ℕ := 8 * MIB
def MAX_WORKERS : ℕ := 256
def DEFAULT_LZMA2_CHUNK_SIZE : ℕ := 64 * 1024 * 1024

inductive ThreadRequest where
  | Auto
  | Single
  | Fixed (count : { n : UInt32 // n ≠ 0 })
deriving DecidableEq

structure Lzma2Options where
  lzmaOptions : LzmaOptions
  chunkSize : NonZeroU64
deriving DecidableEq

/-- What a writer with several workers fails with: it was cancelled, or an I/O error. -/
inductive EncoderError where
  | cancelled
  | io (error : IoError)
deriving DecidableEq, Repr

/-- The LZMA2 writers: one with one worker, and one with several, which can be cancelled by a flag. They
write to an output of type `ω` and give it back as `ρ` when they are finished. -/
structure Lzma2Writers (ω σ π κ ρ : Type) where
  memoryUsage : LzmaOptions → UInt32
  setChunkSize : LzmaOptions → NonZeroU64 → NonZeroU64
  newSingle : ω → Lzma2Options → σ
  newParallel : ω → Lzma2Options → (workers : ℕ) → Except IoError π
  setCancellation : κ → Machine π IoError Unit
  writeSingle : Writer σ IoError UInt8
  writeParallel : Writer π EncoderError UInt8
  flushSingle : Machine σ IoError Unit
  flushParallel : Machine π EncoderError Unit
  finishSingle : σ → Except IoError ρ
  finishParallel : π → Except EncoderError ρ

/-- What is asked of the system: the processors, and the memory that is used when no limit is given. -/
structure Host where
  availableParallelism : Option ℕ
  defaultBudget : UInt64

inductive BackEnd (σ π : Type) where
  | Single (writer : σ)
  | Parallel (writer : π)

inductive State (ω σ π : Type) where
  | Buffered (out : ω) (options : Lzma2Options) (workers : ℕ) (data : List UInt8)
  | Started (backEnd : BackEnd σ π)

/-- The state is taken out while a writer is started, and is gone when that fails. -/
structure Encoder (ω σ π κ : Type) where
  state : Option (State ω σ π)
  control : Option κ

section
variable {ω σ π κ ρ : Type} (codecs : Options.Codecs) (writers : Lzma2Writers ω σ π κ ρ)

/-! How many workers are admitted -/

def defaultChunkSize (dict : UInt32) : NonZeroU64 :=
  ⟨UInt64.ofNat (min (max DEFAULT_LZMA2_CHUNK_SIZE dict.toNat) Options.MAX_LZMA2_CHUNK_SIZE), by
    have hlower : 1 ≤ min (max DEFAULT_LZMA2_CHUNK_SIZE dict.toNat) Options.MAX_LZMA2_CHUNK_SIZE :=
      le_min (le_max_of_le_left (by decide)) (by decide)
    have hupper : min (max DEFAULT_LZMA2_CHUNK_SIZE dict.toNat) Options.MAX_LZMA2_CHUNK_SIZE < 2 ^ 64 :=
      lt_of_le_of_lt (min_le_right _ _) (by decide)
    intro hzero
    have hnat := congrArg UInt64.toNat hzero
    rw [UInt64.toNat_ofNat_of_lt' hupper, UInt64.toNat_zero] at hnat
    omega⟩

def effectiveLzma2ChunkSize (compression : CompressionOptions) : NonZeroU64 :=
  compression.lzma2ChunkSize.getD (defaultChunkSize (lzmaOptions codecs compression).dictSize)

def lzma2Options (compression : CompressionOptions) : Lzma2Options :=
  let options := lzmaOptions codecs compression
  { lzmaOptions := options
    chunkSize := writers.setChunkSize options (effectiveLzma2ChunkSize codecs compression) }

def checkedU64 (n : ℕ) : Option ℕ := if n < 2 ^ 64 then some n else none

def Lzma2Options.chunk (options : Lzma2Options) : ℕ :=
  max options.chunkSize.val.toNat options.lzmaOptions.dictSize.toNat

def requiredBytes (options : Lzma2Options) (workers : ℕ) : Option ℕ := do
  let chunk := options.chunk
  let usage ← checkedU64 ((writers.memoryUsage options.lzmaOptions).toNat * 1024)
  let encoder ← checkedU64 (usage + WORKER_OVERHEAD)
  if workers = 1 then some encoder
  else do
    let pending ← checkedU64 (workers + 1)
    let slots ← checkedU64 (pending + 2)
    let input ← checkedU64 (slots * chunk)
    let twice ← checkedU64 (chunk * 2)
    let output ← checkedU64 (pending * twice)
    let encoders ← checkedU64 (workers * encoder)
    let total ← checkedU64 (encoders + input)
    checkedU64 (total + output)

def fitsBudget (options : Lzma2Options) (budget workers : ℕ) : Bool :=
  (requiredBytes writers options workers).any fun required => required ≤ budget

def requestedWorkers (host : Host) : ThreadRequest → ℕ
  | .Single => 1
  | .Fixed count => count.val.toNat
  | .Auto => min ((host.availableParallelism.filter fun count => count < 2 ^ 32).getD MAX_WORKERS) MAX_WORKERS

def knownBlocks (options : Lzma2Options) (knownSize : Option UInt64) : ℕ :=
  let blocks := match knownSize with
    | some size => max ((size.toNat + (options.chunk - 1)) / options.chunk) 1
    | none => MAX_WORKERS
  min blocks MAX_WORKERS

def selectWorkers (host : Host) (encoderMemoryLimit : Option UInt64) (options : Lzma2Options)
    (knownSize : Option UInt64) (threadRequest : ThreadRequest) : Except R7zError ℕ :=
  let requested := min (requestedWorkers host threadRequest) (knownBlocks options knownSize)
  let budget := (encoderMemoryLimit.getD host.defaultBudget).toNat
  if ¬fitsBudget writers options budget 1 then .error (.limitExceeded "encoder memory")
  else
    match threadRequest with
    | .Auto =>
      .ok (((List.range' 2 (requested - 1)).reverse.find? (fitsBudget writers options budget)).getD 1)
    | _ =>
      if ¬fitsBudget writers options budget requested then .error (.limitExceeded "encoder memory")
      else .ok requested

/-! The encoder -/

def encoderIoError : EncoderError → IoError
  | .cancelled => readIoError .cancelled
  | .io error => error

def writeErrors : WriteErrors IoError where
  interrupted e := decide (e = .interrupted)
  writeZero := .other

def encoderWriteErrors : WriteErrors EncoderError where
  interrupted e := decide (e = .io .interrupted)
  writeZero := .io .other

namespace Encoder

def new (host : Host) (out : ω) (compression : CompressionOptions) (encoderMemoryLimit knownSize : Option UInt64)
    (threadRequest : ThreadRequest) : Except R7zError (Encoder ω σ π κ) := do
  let options := lzma2Options codecs writers compression
  let workers ← selectWorkers writers host encoderMemoryLimit options knownSize threadRequest
  let state ← (
    if workers = 1 then .ok (.Started (.Single (writers.newSingle out options)))
    else if knownSize.isSome then do
      let writer ← (writers.newParallel out options workers).mapError fun e => restoreCallbackError (.io e)
      .ok (.Started (.Parallel writer))
    else .ok (.Buffered out options workers []) : Except R7zError (State ω σ π))
  .ok { state := some state, control := none }

variable {writers}

def onBackEnd {α : Type} (backEnd : BackEnd σ π) (single : Machine σ IoError α)
    (parallel : Machine π IoError α) : Machine (Encoder ω σ π κ) IoError α := fun encoder =>
  match backEnd with
  | .Single writer =>
    ((single writer).1, { encoder with state := some (.Started (.Single (single writer).2)) })
  | .Parallel writer =>
    ((parallel writer).1, { encoder with state := some (.Started (.Parallel (parallel writer).2)) })

def restored {α : Type} (m : Machine π EncoderError α) : Machine π IoError α := fun writer =>
  ((m writer).1.mapError encoderIoError, (m writer).2)

variable (writers)

def cancelledBy : Option κ → Machine π IoError Unit
  | some flag => writers.setCancellation flag
  | none => pure ()

def tellStarted (control : Option κ) : Option (State ω σ π) → Machine (Encoder ω σ π κ) IoError Unit
  | some (.Started backEnd) => onBackEnd backEnd (pure ()) (cancelledBy writers control)
  | _ => pure ()

def withControl (control : Option κ) : Machine (Encoder ω σ π κ) IoError Unit := do
  let encoder ← get
  tellStarted writers control encoder.state
  modify fun encoder => { encoder with control }

/-- What was buffered goes to a new writer. A writer that was started is returned as it is, so that the
result is never in the buffered state. -/
def start (parallel : Bool) (control : Option κ) :
    State ω σ π → Loops (Encoder ω σ π κ) IoError (BackEnd σ π)
  | .Buffered out options workers data =>
    if parallel then do
      let writer ← Loops.once (ofExcept (writers.newParallel out options workers))
      let writer ← Loops.locally writer do
        Loops.once (cancelledBy writers control)
        Loops.mapError encoderIoError (writers.writeParallel.writeAll encoderWriteErrors data)
      pure (.Parallel writer)
    else do
      let writer ← Loops.locally (writers.newSingle out options) (writers.writeSingle.writeAll writeErrors data)
      pure (.Single writer)
  | .Started backEnd => pure backEnd

def startTaken (parallel : Bool) (control : Option κ) (state : State ω σ π) :
    Loops (Encoder ω σ π κ) IoError (BackEnd σ π) := do
  Loops.once (modify fun encoder => { encoder with state := none })
  start writers parallel control state

def finish : Loops (Encoder ω σ π κ) IoError ρ := do
  let encoder ← Loops.once get
  match encoder.state with
  | none => Loops.fail .other
  | some state => do
    let backEnd ← startTaken writers false encoder.control state
    Loops.once (ofExcept (match backEnd with
      | .Single writer => writers.finishSingle writer
      | .Parallel writer => (writers.finishParallel writer).mapError encoderIoError))

def writeStarted (buf : List UInt8) (backEnd : BackEnd σ π) :
    Loops (Encoder ω σ π κ) IoError { n : ℕ // n ≤ buf.length } :=
  Loops.once (onBackEnd backEnd (writers.writeSingle buf) (restored (writers.writeParallel buf)))

/-- As much is buffered as one chunk has; the writer is started by the bytes that do not fit. -/
def write (buf : List UInt8) : Loops (Encoder ω σ π κ) IoError { n : ℕ // n ≤ buf.length } := do
  let encoder ← Loops.once get
  match encoder.state with
  | none => Loops.fail .other
  | some (.Buffered out options workers data) =>
    -- `usize` has 64 bits, so that every threshold fits
    if min (data.length + buf.length) (2 ^ 64 - 1) ≤ options.chunkSize.val.toNat then do
      Loops.once (modify fun encoder =>
        { encoder with state := some (.Buffered out options workers (data ++ buf)) })
      pure ⟨buf.length, Nat.le_refl _⟩
    else do
      let backEnd ← startTaken writers true encoder.control (.Buffered out options workers data)
      writeStarted writers buf backEnd
  | some (.Started backEnd) => writeStarted writers buf backEnd

def flushStarted (backEnd : BackEnd σ π) : Loops (Encoder ω σ π κ) IoError Unit :=
  Loops.once (onBackEnd backEnd writers.flushSingle (restored writers.flushParallel))

def flush : Loops (Encoder ω σ π κ) IoError Unit := do
  let encoder ← Loops.once get
  match encoder.state with
  | none => Loops.fail .other
  | some (.Buffered out options workers data) => do
    let backEnd ← startTaken writers false encoder.control (.Buffered out options workers data)
    flushStarted writers backEnd
  | some (.Started backEnd) => flushStarted writers backEnd

end Encoder

end

end Lzma2

end R7z
