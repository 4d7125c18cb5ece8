import R7z.Decode.Plan
import R7z.FileStreams

/-! A folder that is being decoded: its substreams are read one after the other through one decoder, and
lengths and checksums are checked on the way. -/

namespace R7z

open Effect Effect.Machine

inductive ReadVerification where
  | CompleteFolders
  | SelectedEntries
  | Incomplete
deriving DecidableEq, Repr

def ReadVerification.combine : ReadVerification → ReadVerification → ReadVerification
  | .Incomplete, _ | _, .Incomplete => .Incomplete
  | .SelectedEntries, _ | _, .SelectedEntries => .SelectedEntries
  | .CompleteFolders, .CompleteFolders => .CompleteFolders

inductive CompletionMode where
  | WholeFolder
  | SelectedStreams
deriving DecidableEq, Repr

inductive DigestState where
  | Absent
  | Checking (expected : UInt32) (hasher : List UInt8)
deriving DecidableEq, Repr

namespace DigestState

def new (digest : Option UInt32) : DigestState :=
  match digest with
  | none => .Absent
  | some expected => .Checking expected []

def update (state : DigestState) (bytes : List UInt8) : DigestState :=
  match state with
  | .Absent => .Absent
  | .Checking expected hasher => .Checking expected (hasher ++ bytes)

def finish (crc32 : List UInt8 → UInt32) (state : DigestState) : Except R7zError Unit :=
  match state with
  | .Absent => .ok ()
  | .Checking expected hasher => if expected = crc32 hasher then .ok () else .error .crc

end DigestState

/-- What a callback does with the stream it is given: reads, one after the other, and a result. -/
inductive Consumer (κ : Type) where
  | done (result : Except CallbackError κ)
  | read (size : Nat) (next : Except IoError (List UInt8) → Consumer κ)

structure PackedSource where
  start : UInt64
deriving DecidableEq, Repr

def checkedAddPosition (a b : UInt64) : Except R7zError UInt64 :=
  if a.toNat + b.toNat < 2 ^ 64 then .ok (a + b) else .error .parse

def PackedSource.new (baseOffset packPos : UInt64) : Except R7zError PackedSource := do
  let data ← checkedAddPosition baseOffset 32
  let start ← checkedAddPosition data packPos
  return { start }

structure ReadyFolder (δ : Type) where
  decoder : ReadyDecoder δ
  folder : FolderLayout

structure ActiveFolder (δ : Type) where
  reader : FolderReader δ
  streams : Substreams
  digest : DigestState
  decodedLen : UInt64
  unpackSize : UInt64
  budgetedEagerly : Bool

structure SubstreamReader (δ : Type) where
  reader : FolderReader δ
  remaining : Nat
  folderDigest : DigestState
  streamDigest : DigestState
  decodedLen : UInt64
  limitExceeded : Bool
  chargeBudget : Bool

structure Reading (ω δ : Type) where
  content : SubstreamReader δ
  op : Operation ω

abbrev ReadingM (ω δ : Type) := Machine (Reading ω δ) IoError

section
variable {ω δ : Type} (env : Environment ω δ)

/-- A packed stream is where the layout says, or outside of the source. -/
def PackedSource.reader (packs : PackedSource) (stream : PackedStream) : OperationM ω (δ × Nat) :=
  if packs.start.toNat + stream.start < 2 ^ 64 then
    Operation.external
      (env.openRange (packs.start.toNat + stream.start) (stream.stop - stream.start) stream.crc)
  else fail .parse

def openPacked (packs : PackedSource) : List PackedStream → OperationM ω (List (δ × Nat))
  | [] => pure []
  | stream :: streams => do
    let input ← packs.reader env stream
    let inputs ← openPacked packs streams
    pure (input :: inputs)

def FolderLayout.bind (folder : FolderLayout) (packs : PackedSource) :
    OperationM ω (ReadyFolder δ) := do
  let plan ← DecoderPlan.compileWithBudget env folder.folder folder.graph folder.unpackSize
    folder.coderSizes folder.streams.sizes
  let inputs ← openPacked env packs folder.streams.iter
  let decoder ← ofExcept (plan.bind inputs)
  pure { decoder, folder }

def ReadyFolder.startDecoder (ready : ReadyFolder δ) (password : Option String) :
    OperationM ω (FolderReader δ) := do
  let reader ← ready.decoder.start env password
  Operation.recordHistory fun history =>
    { history with decoders := { folder := ready.folder, reads := [] } :: history.decoders }
  pure reader

def ReadyFolder.start (ready : ReadyFolder δ) (password : Option String) :
    OperationM ω (ActiveFolder δ) := do
  let eagerOutputSize := ready.decoder.eagerOutputSize
  let reader ← match eagerOutputSize with
    | some size => Operation.withEagerDecodedOutput size (ready.startDecoder env password)
    | none => ready.startDecoder env password
  pure { reader, streams := ready.folder.substreams, digest := DigestState.new ready.folder.crc
         decodedLen := 0, unpackSize := ready.folder.unpackSize
         budgetedEagerly := eagerOutputSize.isSome }

def noteRead (bytes : List UInt8) (history : History) : History :=
  match history.decoders with
  | [] => history
  | run :: runs => { history with decoders := { run with reads := run.reads ++ [bytes] } :: runs }

def readFolder (n : Nat) (reader : FolderReader δ) (op : Operation ω) :
    Except IoError (List UInt8) × FolderReader δ × Operation ω :=
  match reader.read env n op.outside with
  | (.ok bytes, reader, outside) =>
    (.ok bytes, reader, { op with outside, history := noteRead bytes op.history })
  | (.error e, reader, outside) => (.error e, reader, { op with outside })

namespace SubstreamReader

def onOperation {α : Type} (toIo : R7zError → IoError) (m : OperationM ω α) : ReadingM ω δ α := fun s =>
  match m s.op with
  | (.ok a, op) => (.ok a, { s with op })
  | (.error e, op) => (.error (toIo e), { s with op })

def readDecoder (n : Nat) : ReadingM ω δ (List UInt8) := fun s =>
  match readFolder env n s.content.reader s.op with
  | (result, reader, op) => (result, { content := { s.content with reader }, op })

def update (f : SubstreamReader δ → SubstreamReader δ) : ReadingM ω δ Unit :=
  modify fun s => { s with content := f s.content }

def allowed (content : SubstreamReader δ) (remaining : Option UInt64) : Option Nat :=
  if content.chargeBudget then remaining.map UInt64.toNat else none

def count (bytes : List UInt8) : ReadingM ω δ Unit := do
  let s ← get
  if s.content.decodedLen.toNat + bytes.length < 2 ^ 64 then do
    update fun content => { content with
      decodedLen := content.decodedLen + UInt64.ofNat bytes.length
      folderDigest := content.folderDigest.update bytes
      streamDigest := content.streamDigest.update bytes }
    if s.content.chargeBudget then onOperation readIoError (advance env bytes.length) else pure ()
  else fail .invalidData

def account (bytes : List UInt8) : ReadingM ω δ Unit := do
  update fun content => { content with remaining := content.remaining - bytes.length }
  let s ← get
  if s.content.chargeBudget then do
    onOperation (fun _ => .invalidData) (Operation.chargeDecoded (UInt64.ofNat bytes.length))
    count env bytes
  else count env bytes

def readWithin (limit : Nat) : ReadingM ω δ (List UInt8) := do
  let s ← get
  let bytes ← readDecoder env (s.op.budget.monitor.bufferSize limit)
  if bytes.isEmpty then fail .unexpectedEof
  else do
    account env bytes
    pure bytes

def read (n : Nat) : ReadingM ω δ (List UInt8) := do
  onOperation readIoError (check env)
  let s ← get
  let limit := min s.content.remaining n
  if limit = 0 then pure []
  else do
    let remaining ← onOperation readIoError Operation.decodedRemaining
    if s.content.allowed remaining = some 0 then do
      update fun content => { content with limitExceeded := true }
      fail .other
    else
      match s.content.allowed remaining with
      | none => readWithin env limit
      | some allowed => readWithin env (min limit allowed)

/-- Copy to a sink that takes everything: read until nothing comes, again after an interruption. -/
def drain : Nat → ReadingM ω δ Unit
  | 0 => fail .interrupted
  | turns + 1 => do
    match ← attempt (read env 8192) with
    | .ok bytes => if bytes.isEmpty then pure () else drain turns
    | .error .interrupted => drain turns
    | .error e => fail e

end SubstreamReader

def noteHanded (size : Nat) (bytes : List UInt8) (history : History) : History :=
  match history.callbacks with
  | [] => history
  | run :: runs =>
    { history with callbacks := { run with handed := run.handed ++ [(size, bytes)] } :: runs }

/-- A callback at work; what its reads give goes on record. -/
def Consumer.run {κ : Type} : Consumer κ → Reading ω δ → Except CallbackError κ × Reading ω δ
  | .done result, s => (result, s)
  | .read size next, s =>
    match SubstreamReader.read env size s with
    | (.ok bytes, s) =>
      (next (.ok bytes)).run { s with op := { s.op with history := noteHanded size bytes s.op.history } }
    | (.error e, s) => (next (.error e)).run s

def noteInvoked (entry : Nat) (history : History) : History :=
  { history with callbacks := { entry, handed := [] } :: history.callbacks }

def Consumer.invoke {κ : Type} (consumer : Consumer κ) (entry : Nat) (s : Reading ω δ) :
    Except CallbackError κ × Reading ω δ :=
  consumer.run env { s with op := { s.op with history := noteInvoked entry s.op.history } }

def Consumer.runEmpty {κ : Type} : Consumer κ → History → Except CallbackError κ × History
  | .done result, history => (result, history)
  | .read size next, history => (next (.ok [])).runEmpty (noteHanded size [] history)

namespace ActiveFolder

def position (folder : ActiveFolder δ) : Nat := folder.streams.position

def openStream (folder : ActiveFolder δ) (stream : Substream) : SubstreamReader δ :=
  { reader := folder.reader, remaining := stream.stop - stream.start, folderDigest := folder.digest
    streamDigest := DigestState.new stream.digest, decodedLen := folder.decodedLen
    limitExceeded := false, chargeBudget := !folder.budgetedEagerly }

def closeStream (folder : ActiveFolder δ) (streams : Substreams) (content : SubstreamReader δ) :
    ActiveFolder δ :=
  { folder with reader := content.reader, streams, digest := content.folderDigest
                decodedLen := content.decodedLen }

/-- The callback goes first; then the rest of the substream is drained, and its end is checked. -/
def readStream {κ : Type} (folder : ActiveFolder δ)
    (consume : Reading ω δ → Except CallbackError κ × Reading ω δ) :
    OperationM ω (ActiveFolder δ × κ) :=
  match folder.streams.next with
  | none => fail .parse
  | some (stream, streams) => fun op =>
    let (consumed, s) := consume { content := folder.openStream stream, op }
    if s.content.limitExceeded then (.error s.op.budget.decodedLimitError, s.op)
    else
      match consumed with
      | .error e => (.error (restoreCallbackError e), s.op)
      | .ok result =>
        -- what the callback left is read too, for the checksum
        let (drained, s) := SubstreamReader.drain env env.copyTurns s
        if s.content.limitExceeded then (.error s.op.budget.decodedLimitError, s.op)
        else
          match drained with
          | .error e => (.error (restoreReadError e), s.op)
          | .ok () =>
            -- the decoder ended early, and told nobody
            if s.content.remaining ≠ 0 then (.error .decompression, s.op)
            else
              match s.content.streamDigest.finish env.crc32 with
              | .error e => (.error e, s.op)
              | .ok () => (.ok (folder.closeStream streams s.content, result), s.op)

def skipStream (folder : ActiveFolder δ) : OperationM ω (ActiveFolder δ) := do
  let (folder, _) ← folder.readStream env fun s => (.ok (), s)
  pure folder

def skipStreams : Nat → ActiveFolder δ → OperationM ω (ActiveFolder δ)
  | 0, folder => pure folder
  | n + 1, folder => do
    let folder ← folder.skipStream env
    skipStreams n folder

def skipTo (folder : ActiveFolder δ) (position : Nat) : OperationM ω (ActiveFolder δ) :=
  if folder.position ≤ position ∧ position ≤ folder.streams.layout.len then
    skipStreams env (position - folder.position) folder
  else fail .parse

def readExtra (folder : ActiveFolder δ) : OperationM ω (List UInt8) := fun op =>
  match readFolder env 1 folder.reader op with
  | (.ok bytes, _, op) => (.ok bytes, op)
  | (.error e, _, op) => (.error (restoreReadError e), op)

def finish (folder : ActiveFolder δ) (mode : CompletionMode) : OperationM ω ReadVerification :=
  if mode = .SelectedStreams ∧ folder.digest = .Absent ∧ folder.streams.remaining ≠ 0 then
    pure .SelectedEntries
  else do
    let folder ← skipStreams env folder.streams.remaining folder
    if folder.decodedLen ≠ folder.unpackSize then fail .decompression
    else do
      let extra ← folder.readExtra env
      if ¬extra.isEmpty then fail .decompression
      else do
        ofExcept (folder.digest.finish env.crc32)
        pure .CompleteFolders

end ActiveFolder

end

end R7z
