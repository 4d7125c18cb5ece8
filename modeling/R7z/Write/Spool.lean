import R7z.Decode.Budget
import R7z.Effect.Reader
import R7z.Effect.Writer
import R7z.Write.Encode

/-! The spool an archive is built in: memory, until there is too much for it, and a temporary file from
then on. -/

namespace R7z.Write

open Effect Effect.Machine

inductive FileError where
  | interrupted
  | writeZero
  | invalidInput
  | alreadyExists
  | other (code : ℕ)
deriving DecidableEq, Repr

/-- Why an access to a spool fails. A cursor over a vector panics where `noRoom` stands, for the vector
cannot become so long. -/
inductive SpoolIoError where
  | file (error : FileError)
  | create (error : R7zError)
  | noRoom
  | limit (message : String)
deriving DecidableEq, Repr

inductive SeekFrom where
  | Start (offset : UInt64)
  | End (offset : Int64)
  | Current (offset : Int64)
deriving DecidableEq, Repr

/-- Neither a vector nor a file has more bytes. -/
def MAX_LEN : ℕ := 2 ^ 63 - 1

def lenU64 (n : ℕ) : UInt64 := UInt64.ofNat (min n (2 ^ 64 - 1))

def SeekFrom.target (pos : SeekFrom) (cursor : Sink) : ℤ :=
  match pos with
  | .Start offset => offset.toNat
  | .End offset => cursor.content.length + offset.toInt
  | .Current offset => cursor.position + offset.toInt

/-! A cursor over a vector -/

def Sink.writeBuf (buf : List UInt8) : Machine Sink SpoolIoError ℕ := fun cursor =>
  if cursor.position + buf.length ≤ MAX_LEN then (.ok buf.length, cursor.write buf)
  else (.error .noRoom, cursor)

def Sink.readBuf (n : ℕ) : Machine Sink SpoolIoError (List UInt8) := fun cursor =>
  let bytes := (cursor.content.drop cursor.position).take n
  (.ok bytes, { cursor with position := cursor.position + bytes.length })

def Sink.seekTo (pos : SeekFrom) : Machine Sink SpoolIoError ℕ := fun cursor =>
  let target := pos.target cursor
  if 0 ≤ target ∧ target < 2 ^ 64 then (.ok target.toNat, cursor.seek target.toNat)
  else (.error (.file .invalidInput), cursor)

/-! Temporary files -/

/-- Files as the outside has them: `ω` is the outside, and `φ` an open file with its path. -/
structure FileSystem (ω φ : Type) where
  processId : ℕ
  tempDir : String
  createDirAll : String → Machine ω FileError Unit
  random : Machine ω FileError UInt64
  createNew : String → Machine ω FileError φ
  write : φ → Writer ω FileError UInt8
  read : φ → BoundedReader ω FileError UInt8
  seek : φ → SeekFrom → Machine ω FileError ℕ
  /-- Close a file and remove it; that it cannot be removed is not looked at. -/
  remove : φ → ω → ω

def fileErrors : WriteErrors FileError where
  interrupted e := decide (e = .interrupted)
  writeZero := .writeZero

def hex16 (n : UInt64) : String :=
  let digits := Nat.toDigits 16 n.toNat
  String.ofList (List.replicate (16 - digits.length) '0' ++ digits)

def spoolName (processId attempt : ℕ) (random : UInt64) : String :=
  "r7z-spool-" ++ toString processId ++ "-" ++ toString attempt ++ "-" ++ hex16 random ++ ".tmp"

section
variable {ω φ : Type} (fs : FileSystem ω φ)

def orFail {ε ε' α : Type} (f : ε → ε') (m : Machine ω ε α) : Machine ω ε' α := fun outside =>
  ((m outside).1.mapError f, (m outside).2)

def createAttempts (dir : String) : (left attempt : ℕ) → Machine ω R7zError φ
  | 0, _ => fail (.invalidOptions "could not create temp spool file")
  | left + 1, attempt => do
    let random ← orFail (fun _ => .parse) fs.random
    let path := dir ++ "/" ++ spoolName fs.processId attempt random
    match ← (Machine.attempt (fs.createNew path) : Machine ω R7zError _) with
    | .ok file => pure file
    | .error .alreadyExists => createAttempts dir left (attempt + 1)
    | .error _ => fail .io

def createTempSpool (dir : Option String) : Machine ω R7zError φ := do
  let dir := dir.getD fs.tempDir
  orFail (fun _ => .io) (fs.createDirAll dir)
  createAttempts fs dir 100 0

end

/-! The budgets -/

structure TemporaryStorageBudget where
  written : UInt64
  limit : Option UInt64
deriving DecidableEq, Repr

def TemporaryStorageBudget.checkWrite (budget : TemporaryStorageBudget) (bytes : UInt64) : Except R7zError Unit :=
  (nextTotal budget.written bytes budget.limit "temporary storage").map fun _ => ()

def TemporaryStorageBudget.chargeWrite (budget : TemporaryStorageBudget) (bytes : UInt64) :
    Except R7zError TemporaryStorageBudget := do
  let written ← nextTotal budget.written bytes budget.limit "temporary storage"
  .ok { budget with written }

structure RetainedOutputBudget where
  retained : UInt64
  limit : Option UInt64
deriving DecidableEq, Repr

def saturatingSub (a b : UInt64) : UInt64 := if b ≤ a then a - b else 0

namespace RetainedOutputBudget

variable (budget : RetainedOutputBudget)

def resizedTotal (current next : UInt64) : Except R7zError UInt64 :=
  nextTotal (saturatingSub budget.retained current) next budget.limit "retained output"

def checkResize (current next : UInt64) : Except R7zError Unit :=
  (budget.resizedTotal current next).map fun _ => ()

def resize (current next : UInt64) : Except R7zError RetainedOutputBudget := do
  let retained ← budget.resizedTotal current next
  .ok { budget with retained }

def release (bytes : UInt64) : RetainedOutputBudget := { budget with retained := saturatingSub budget.retained bytes }

end RetainedOutputBudget

structure SpoolBudget where
  temporaryStorage : TemporaryStorageBudget
  retainedOutput : RetainedOutputBudget
deriving DecidableEq, Repr

def SpoolBudget.new (temporaryLimit retainedLimit : Option UInt64) : SpoolBudget where
  temporaryStorage := ⟨0, temporaryLimit⟩
  retainedOutput := ⟨0, retainedLimit⟩

/-! The spool -/

inductive AutoSpoolInner (φ : Type) where
  | Memory (cursor : Sink)
  | TempFile (file : φ)

/-- A spool, and the outside that its file is in. -/
structure AutoSpool (ω φ : Type) where
  memoryThreshold : Option UInt64
  dir : Option String
  budget : SpoolBudget
  temporaryStorageLimitExceeded : Bool
  retainedOutputLimitExceeded : Bool
  inner : AutoSpoolInner φ
  outside : ω

abbrev SpoolM (ω φ α : Type) := Machine (AutoSpool ω φ) SpoolIoError α

namespace AutoSpool

variable {ω φ : Type} (fs : FileSystem ω φ)

def new (memoryThreshold : Option UInt64) (dir : Option String) (budget : SpoolBudget) (outside : ω) :
    Except R7zError (AutoSpool ω φ) :=
  let spool (inner : AutoSpoolInner φ) (outside : ω) : AutoSpool ω φ :=
    { memoryThreshold, dir, budget, temporaryStorageLimitExceeded := false
      retainedOutputLimitExceeded := false, inner, outside }
  if memoryThreshold = some 0 then
    match createTempSpool fs dir outside with
    | (.ok file, outside) => .ok (spool (.TempFile file) outside)
    | (.error e, _) => .error e
  else .ok (spool (.Memory ⟨[], 0⟩) outside)

def onOutside {ε α : Type} (f : ε → SpoolIoError) (m : Machine ω ε α) : SpoolM ω φ α := fun spool =>
  ((m spool.outside).1.mapError f, { spool with outside := (m spool.outside).2 })

def checkTemporaryStorageWrite (bytes : UInt64) : SpoolM ω φ Unit := fun spool =>
  match spool.budget.temporaryStorage.checkWrite bytes with
  | .ok () => (.ok (), spool)
  | .error _ =>
    (.error (.limit "temporary storage limit exceeded"), { spool with temporaryStorageLimitExceeded := true })

def chargeTemporaryStorageWrite (bytes : UInt64) : SpoolM ω φ Unit := fun spool =>
  match spool.budget.temporaryStorage.chargeWrite bytes with
  | .ok temporaryStorage => (.ok (), { spool with budget := { spool.budget with temporaryStorage } })
  | .error _ =>
    (.error (.limit "temporary storage limit exceeded"), { spool with temporaryStorageLimitExceeded := true })

def projectedLen (cursor : Sink) (writeLen : UInt64) : UInt64 :=
  max (saturatingAdd (UInt64.ofNat cursor.position) writeLen) (UInt64.ofNat cursor.content.length)

def copyToFile (file : φ) (cursor : Sink) : Loops ω FileError Unit := do
  (fs.write file).writeAll fileErrors cursor.content
  let _ ← Loops.once (fs.seek file (.Start (UInt64.ofNat cursor.position)))

def switchTo (file : φ) (migrationBytes : UInt64) : SpoolM ω φ Unit := do
  chargeTemporaryStorageWrite migrationBytes
  modify fun spool =>
    { spool with
      budget := { spool.budget with retainedOutput := spool.budget.retainedOutput.release migrationBytes }
      inner := .TempFile file }

/-- Carry the vector over to a new file. A file that does not take it is removed, and memory stays. -/
def migrate (cursor : Sink) (dir : Option String) : Loops (AutoSpool ω φ) SpoolIoError Unit := do
  let file ← Loops.once (onOutside .create (createTempSpool fs dir))
  match ← (Loops.attempt (Loops.focus AutoSpool.outside (fun outside spool => { spool with outside })
      (copyToFile fs file cursor)) : Loops (AutoSpool ω φ) SpoolIoError _) with
  | .error e => Loops.once do
    modify fun spool => { spool with outside := fs.remove file spool.outside }
    fail (.file e)
  | .ok () => Loops.once (switchTo file (UInt64.ofNat cursor.content.length))

/-- The write makes the vector longer than it should be, and there is somewhere else to go. -/
def rolls (spool : AutoSpool ω φ) (cursor : Sink) (writeLen : UInt64) : Bool :=
  (spool.memoryThreshold.any (fun threshold => threshold < projectedLen cursor writeLen) ||
    spool.budget.retainedOutput.limit.any fun limit => limit < projectedLen cursor writeLen) &&
  spool.memoryThreshold.isSome

def maybeRollToFile (writeLen : UInt64) : Loops (AutoSpool ω φ) SpoolIoError Unit := do
  let spool ← Loops.once get
  match spool.inner with
  | .TempFile _ => pure ()
  | .Memory cursor =>
    if rolls spool cursor writeLen then do
      Loops.once
        (checkTemporaryStorageWrite (saturatingAdd (UInt64.ofNat cursor.content.length) writeLen))
      migrate fs cursor spool.dir
    else pure ()

def checkTemporaryFileWrite (writeLen : ℕ) : SpoolM ω φ Unit := do
  let spool ← get
  match spool.inner with
  | .Memory _ => pure ()
  | .TempFile _ => if writeLen = 0 then pure () else checkTemporaryStorageWrite (lenU64 writeLen)

def chargeTemporaryFileWrite (written : ℕ) : SpoolM ω φ Unit := do
  let spool ← get
  match spool.inner with
  | .Memory _ => pure ()
  | .TempFile _ => if written = 0 then pure () else chargeTemporaryStorageWrite (lenU64 written)

def checkRetainedMemoryWrite (writeLen : UInt64) : SpoolM ω φ Unit := fun spool =>
  match spool.inner with
  | .TempFile _ => (.ok (), spool)
  | .Memory cursor =>
    match spool.budget.retainedOutput.checkResize (UInt64.ofNat cursor.content.length)
        (projectedLen cursor writeLen) with
    | .ok () => (.ok (), spool)
    | .error _ =>
      (.error (.limit "retained output limit exceeded"), { spool with retainedOutputLimitExceeded := true })

def chargeRetainedMemoryWrite (previousLen : UInt64) : SpoolM ω φ Unit := fun spool =>
  match spool.inner with
  | .TempFile _ => (.ok (), spool)
  | .Memory cursor =>
    match spool.budget.retainedOutput.resize previousLen (UInt64.ofNat cursor.content.length) with
    | .ok retainedOutput => (.ok (), { spool with budget := { spool.budget with retainedOutput } })
    | .error _ =>
      (.error (.limit "retained output limit exceeded"), { spool with retainedOutputLimitExceeded := true })

def onInner {α β : Type} (f : α → β) (memory : Machine Sink SpoolIoError β)
    (onFile : φ → Machine ω FileError α) : SpoolM ω φ β := fun spool =>
  match spool.inner with
  | .Memory cursor => ((memory cursor).1, { spool with inner := .Memory (memory cursor).2 })
  | .TempFile file => (((onFile file spool.outside).1.mapError .file).map f,
      { spool with outside := (onFile file spool.outside).2 })

def writeInner (buf : List UInt8) : SpoolM ω φ ℕ :=
  onInner Subtype.val (Sink.writeBuf buf) fun file => fs.write file buf

def previousLen (spool : AutoSpool ω φ) : Option UInt64 :=
  match spool.inner with
  | .Memory cursor => some (UInt64.ofNat cursor.content.length)
  | .TempFile _ => none

def writeThrough (buf : List UInt8) : SpoolM ω φ ℕ := do
  let spool ← get
  checkRetainedMemoryWrite (lenU64 buf.length)
  let written ← writeInner fs buf
  chargeTemporaryFileWrite written
  match spool.previousLen with
  | some previousLen => do
    chargeRetainedMemoryWrite previousLen
    pure written
  | none => pure written

def write (buf : List UInt8) : Loops (AutoSpool ω φ) SpoolIoError ℕ := do
  Loops.once (checkTemporaryFileWrite buf.length)
  maybeRollToFile fs (lenU64 buf.length)
  Loops.once (writeThrough fs buf)

def read (n : ℕ) : SpoolM ω φ (List UInt8) :=
  onInner Subtype.val (Sink.readBuf n) fun file => fs.read file n

def seek (pos : SeekFrom) : SpoolM ω φ ℕ :=
  onInner id (Sink.seekTo pos) fun file => fs.seek file pos

/-- What a caller is told in place of an I/O error. Where a limit was exceeded there is one. -/
def limitError (spool : AutoSpool ω φ) : Option R7zError :=
  if spool.retainedOutputLimitExceeded then
    spool.budget.retainedOutput.limit.map fun limit => .resourceLimitExceeded "retained output" limit
  else if spool.temporaryStorageLimitExceeded then
    spool.budget.temporaryStorage.limit.map fun limit => .resourceLimitExceeded "temporary storage" limit
  else none

end AutoSpool

/-! Calls -/

inductive SpoolCall where
  | write (buf : List UInt8)
  | read (n : ℕ)
  | seek (pos : SeekFrom)
deriving DecidableEq, Repr

inductive SpoolAnswer where
  | wrote (n : ℕ)
  | bytes (bytes : List UInt8)
  | position (position : ℕ)
deriving DecidableEq, Repr

def AutoSpool.call {ω φ : Type} (fs : FileSystem ω φ) :
    SpoolCall → Loops (AutoSpool ω φ) SpoolIoError SpoolAnswer
  | .write buf => do return .wrote (← AutoSpool.write fs buf)
  | .read n => do return .bytes (← Loops.once (AutoSpool.read fs n))
  | .seek pos => do return .position (← Loops.once (AutoSpool.seek fs pos))

def Sink.call : SpoolCall → Machine Sink SpoolIoError SpoolAnswer
  | .write buf => do return .wrote (← Sink.writeBuf buf)
  | .read n => do return .bytes (← Sink.readBuf n)
  | .seek pos => do return .position (← Sink.seekTo pos)

end R7z.Write
