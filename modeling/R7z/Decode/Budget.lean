import R7z.Effect.Machine
import R7z.FolderLayout

/-! The counters that an operation runs against, and its monitor: cancellation and progress. -/

namespace R7z

open Effect Effect.Machine

structure ResourceLimits where
  maxMetadataBytes : UInt64
  maxDecoderWorkingSetBytes : Option UInt64
  maxTotalDecodedBytes : Option UInt64
  maxTotalKdfCycles : Option UInt64
deriving DecidableEq, Repr

/-- `Interrupted` and the end of the data are told apart from other I/O errors, and so are the errors
of the library that travel inside one. -/
inductive IoError where
  | cancelledRead
  | wrapped (error : R7zError)
  | interrupted
  | unexpectedEof
  | invalidData
  | other
deriving DecidableEq, Repr

/-- What a callback returns when it fails: an I/O error of its own, or an error of the library. -/
inductive CallbackError where
  | io (error : IoError)
  | r7z (error : R7zError)
deriving DecidableEq, Repr

def readIoError : R7zError → IoError
  | .cancelled => .cancelledRead
  | error => .wrapped error

def restoreCallbackError : CallbackError → R7zError
  | .io .cancelledRead => .cancelled
  | .io _ => .io
  | .r7z error => error

def restoreReadError : IoError → R7zError
  | .cancelledRead => .cancelled
  | .wrapped error => error
  | _ => .io

def CHECK_INTERVAL : Nat := 64 * 1024

structure OperationMonitor where
  hasControl : Bool
  processed : UInt64
  reported : UInt64
deriving DecidableEq, Repr

def OperationMonitor.new (hasControl : Bool) : OperationMonitor :=
  { hasControl, processed := 0, reported := 0 }

def OperationMonitor.bufferSize (monitor : OperationMonitor) (requested : Nat) : Nat :=
  if monitor.hasControl then min requested CHECK_INTERVAL else requested

def saturatingAdd (a b : UInt64) : UInt64 :=
  if a.toNat + b.toNat < 2 ^ 64 then a + b else UInt64.ofNat (2 ^ 64 - 1)

/-- The next value of a counter: without a limit it sticks at the last value it can hold. -/
def nextTotal (used amount : UInt64) (limit : Option UInt64) (resource : String) :
    Except R7zError UInt64 :=
  match limit with
  | none => .ok (saturatingAdd used amount)
  | some limit =>
    if used.toNat + amount.toNat < 2 ^ 64 ∧ used + amount ≤ limit then .ok (used + amount)
    else .error (.resourceLimitExceeded resource limit)

structure KdfBudget where
  used : UInt64
  limit : Option UInt64
deriving DecidableEq, Repr

def KdfBudget.charge (budget : KdfBudget) (cycles : UInt64) : Except R7zError KdfBudget := do
  let used ← nextTotal budget.used cycles budget.limit "AES KDF cycles"
  return { budget with used }

structure OperationBudget where
  monitor : OperationMonitor
  limits : ResourceLimits
  metadata : UInt64
  decoded : UInt64
  peakDecoderWorkingSet : Nat
  kdf : KdfBudget
deriving DecidableEq, Repr

def MAX_DECODER_WORKING_SET_BYTES : Nat := 512 * 1024 * 1024

namespace OperationBudget

def new (limits : ResourceLimits) (hasControl : Bool) : OperationBudget :=
  { monitor := OperationMonitor.new hasControl, limits, metadata := 0, decoded := 0,
    peakDecoderWorkingSet := 0, kdf := { used := 0, limit := limits.maxTotalKdfCycles } }

def metadataRemaining (budget : OperationBudget) : UInt64 :=
  budget.limits.maxMetadataBytes - budget.metadata

def decodedRemaining (budget : OperationBudget) : Option UInt64 :=
  budget.limits.maxTotalDecodedBytes.map fun limit => limit - budget.decoded

def metadataLimitError (budget : OperationBudget) : R7zError :=
  .resourceLimitExceeded "metadata" budget.limits.maxMetadataBytes

def chargeMetadata (budget : OperationBudget) (bytes : UInt64) : Except R7zError OperationBudget :=
  if budget.metadata.toNat + bytes.toNat < 2 ^ 64 then
    if budget.metadata + bytes > budget.limits.maxMetadataBytes then .error budget.metadataLimitError
    else .ok { budget with metadata := budget.metadata + bytes }
  else .error budget.metadataLimitError

def mapMetadataError (budget : OperationBudget) : R7zError → R7zError
  | .limitExceeded what => if what = "metadata" then budget.metadataLimitError else .limitExceeded what
  | error => error

def decodedLimitError (budget : OperationBudget) : R7zError :=
  .resourceLimitExceeded "total decoded output"
    (budget.limits.maxTotalDecodedBytes.getD (UInt64.ofNat (2 ^ 64 - 1)))

def nextDecoded (budget : OperationBudget) (bytes : UInt64) : Except R7zError UInt64 :=
  if budget.decoded.toNat + bytes.toNat < 2 ^ 64 then
    if budget.limits.maxTotalDecodedBytes.any fun limit => budget.decoded + bytes > limit then
      .error budget.decodedLimitError
    else .ok (budget.decoded + bytes)
  else
    match budget.limits.maxTotalDecodedBytes with
    | none => .ok (UInt64.ofNat (2 ^ 64 - 1))
    | some _ => .error budget.decodedLimitError

def chargeDecoded (budget : OperationBudget) (bytes : UInt64) : Except R7zError OperationBudget := do
  let decoded ← budget.nextDecoded bytes
  return { budget with decoded }

def admitDecoderWorkingSet (budget : OperationBudget) (bytes : Nat) : Except R7zError OperationBudget :=
  let limit := match budget.limits.maxDecoderWorkingSetBytes with
    | none => MAX_DECODER_WORKING_SET_BYTES
    | some configured => min configured.toNat MAX_DECODER_WORKING_SET_BYTES
  if bytes > limit then .error (.resourceLimitExceeded "decoder working set" (UInt64.ofNat limit))
  else .ok { budget with peakDecoderWorkingSet := max budget.peakDecoderWorkingSet bytes }

def chargeKdfCycles (budget : OperationBudget) (cycles : UInt64) : Except R7zError OperationBudget := do
  let kdf ← budget.kdf.charge cycles
  return { budget with kdf }

end OperationBudget

/-- A decoder that was started, and what each read of it gave; a read of nothing is the end. -/
structure DecoderRun where
  folder : FolderLayout
  reads : List (List UInt8)

/-- A callback that was invoked for an entry, and what each read gave it: the size it asked for, and the
bytes. -/
structure CallbackRun where
  entry : Nat
  handed : List (Nat × List UInt8)

/-- What opening an archive puts into memory. -/
inductive MetadataBlock where
  | NextHeader
  | DecodedHeader
  | ExternalSlots
  | ExternalData
deriving DecidableEq, Repr

/-- What an operation has done: the record that its results are stated about. Decoders and callbacks
stand with the latest first; a block of metadata stands under `planned` with the size it was to take
before it was read, and under `held` with the size it took. `underflow` is set when a counter is found
above its limit as the difference of the two is taken. -/
structure History where
  decoders : List DecoderRun
  callbacks : List CallbackRun
  charged : Nat
  planned : List (MetadataBlock × Nat)
  held : List (MetadataBlock × Nat)
  underflow : Bool

def History.empty : History :=
  { decoders := [], callbacks := [], charged := 0, planned := [], held := [], underflow := false }

/-- An operation under way. What lies outside of it moves on with every call. -/
structure Operation (ω : Type) where
  budget : OperationBudget
  cancelled : Bool
  outside : ω
  history : History

abbrev OperationM (ω : Type) := Machine (Operation ω) R7zError

namespace Operation

variable {ω : Type}

def new (budget : OperationBudget) (outside : ω) : Operation ω :=
  { budget, cancelled := false, outside, history := History.empty }

def recordHistory (f : History → History) : OperationM ω Unit :=
  modify fun op => { op with history := f op.history }

def onBudget (f : OperationBudget → Except R7zError OperationBudget) : OperationM ω Unit := fun op =>
  match f op.budget with
  | .ok budget => (.ok (), { op with budget })
  | .error e => (.error e, op)

def chargeMetadata (bytes : UInt64) : OperationM ω Unit := onBudget fun b => b.chargeMetadata bytes

def chargeKdfCycles (cycles : UInt64) : OperationM ω Unit := onBudget fun b => b.chargeKdfCycles cycles

def noteSubtraction (limit used : UInt64) (history : History) : History :=
  { history with underflow := history.underflow || decide (limit < used) }

def metadataRemaining : OperationM ω UInt64 := do
  let op ← get
  recordHistory (noteSubtraction op.budget.limits.maxMetadataBytes op.budget.metadata)
  pure op.budget.metadataRemaining

def decodedRemaining : OperationM ω (Option UInt64) := do
  let op ← get
  match op.budget.limits.maxTotalDecodedBytes with
  | none => pure ()
  | some limit => recordHistory (noteSubtraction limit op.budget.decoded)
  pure op.budget.decodedRemaining

def noteCharge (bytes : UInt64) (history : History) : History :=
  { history with charged := history.charged + bytes.toNat }

def chargeDecoded (bytes : UInt64) : OperationM ω Unit := do
  onBudget fun b => b.chargeDecoded bytes
  recordHistory (noteCharge bytes)

def admitDecoderWorkingSet (bytes : Nat) : OperationM ω Unit :=
  onBudget fun b => b.admitDecoderWorkingSet bytes

def notCounted : R7zError → Bool
  | .passwordRequired => true
  | .resourceLimitExceeded resource _ => decide (resource = "AES KDF cycles")
  | _ => false

/-- Decoded output is counted in advance, unless the decoder did not get as far as decoding. -/
def withEagerDecodedOutput {α : Type} (bytes : UInt64) (start : OperationM ω α) : OperationM ω α := do
  let op ← get
  let nextTotal ← ofExcept (op.budget.nextDecoded bytes)
  let count : OperationM ω Unit := do
    modify fun op => { op with budget := { op.budget with decoded := nextTotal } }
    recordHistory (noteCharge bytes)
  match ← attempt start with
  | .ok output => do
    count
    pure output
  | .error error => do
    if notCounted error then pure () else count
    fail error

end Operation

end R7z
