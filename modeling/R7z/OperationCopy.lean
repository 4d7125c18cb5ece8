import R7z.Decode.Budget
import R7z.Effect.Reader
import R7z.Effect.Writer
import R7z.Write.Writer

/-! Copying from a reader to a writer: the copy of the standard library, and the copy of an operation that
looks for a cancellation and reports its progress. -/

namespace R7z

open Effect Effect.Machine

namespace Copying

def BUFFER_SIZE : ℕ := 8 * 1024

def writeErrors : WriteErrors IoError where
  interrupted e := decide (e = .interrupted)
  writeZero := .other

structure Pipe (ρ ω : Type) where
  reader : ρ
  writer : ω
  written : List UInt8
deriving DecidableEq

section
variable {ρ ω : Type} (reader : BoundedReader ρ IoError UInt8) (writer : Writer ω IoError UInt8)

namespace Pipe

def read (n : ℕ) : Machine (Pipe ρ ω) IoError (List UInt8) :=
  focus Pipe.reader (fun state pipe => { pipe with reader := state }) (reader.plain n)

def write : Writer (Pipe ρ ω) IoError UInt8 := fun bytes =>
  focus (fun pipe => (pipe.writer, pipe.written))
    (fun state pipe => { pipe with writer := state.1, written := state.2 }) (writer.logged bytes)

def writeAll (bytes : List UInt8) : Loops (Pipe ρ ω) IoError Unit := (write writer).writeAll writeErrors bytes

end Pipe

def copyTurn (len : UInt64) : Loops (Pipe ρ ω) IoError (UInt64 ⊕ UInt64) := do
  match ← Loops.once (attempt (Pipe.read reader BUFFER_SIZE)) with
  | .error e => if e = .interrupted then pure (.inl len) else Loops.fail e
  | .ok bytes =>
    if bytes.isEmpty then pure (.inr len)
    else do
      Pipe.writeAll writer bytes
      pure (.inl (len + UInt64.ofNat bytes.length))

def ioCopy : Loops (Pipe ρ ω) IoError UInt64 := Loops.loop (copyTurn reader writer) 0

end

/-! The monitor -/

inductive OperationPhase where
  | Read | Write | CopyOutput
deriving DecidableEq, Repr

structure OperationProgress where
  phase : OperationPhase
  bytesProcessed : UInt64
deriving DecidableEq, Repr

/-- Whoever holds a clone of the control: they may cancel at any time, also from the callback. -/
structure Control (υ : Type) where
  cancels : υ → Bool × υ
  progress : Option (OperationProgress → υ → Bool × υ)

structure Control.NeverCancels {υ : Type} (control : Control υ) : Prop where
  cancels : ∀ u, (control.cancels u).1 = false
  progress : ∀ callback ∈ control.progress, ∀ report u, (callback report u).1 = false

structure Copy (ρ ω υ : Type) where
  pipe : Pipe ρ ω
  phase : OperationPhase
  monitor : OperationMonitor
  cancelled : Bool
  user : υ

abbrev CopyM (ρ ω υ : Type) := Machine (Copy ρ ω υ) R7zError

section
variable {ρ ω υ : Type} (control : Control υ)

def ask (question : υ → Bool × υ) : CopyM ρ ω υ Unit := modify fun copy =>
  { copy with cancelled := copy.cancelled || (question copy.user).1, user := (question copy.user).2 }

def controlCheck : CopyM ρ ω υ Unit := do
  ask control.cancels
  let copy ← get
  if copy.cancelled then fail .cancelled else pure ()

def check : CopyM ρ ω υ Unit := do
  let copy ← get
  if copy.monitor.hasControl then controlCheck control else pure ()

def report (processed : UInt64) : CopyM ρ ω υ Unit := do
  let copy ← get
  if CHECK_INTERVAL ≤ (processed - copy.monitor.reported).toNat then do
    modify fun copy => { copy with monitor := { copy.monitor with reported := processed } }
    match control.progress with
    | some callback => ask (callback { phase := copy.phase, bytesProcessed := processed })
    | none => pure ()
  else pure ()

def advance (bytes : ℕ) : CopyM ρ ω υ Unit := do
  let copy ← get
  if copy.monitor.hasControl then do
    let processed := saturatingAdd copy.monitor.processed (UInt64.ofNat bytes)
    modify fun copy => { copy with monitor := { copy.monitor with processed } }
    report control processed
    controlCheck control
  else pure ()

variable (reader : BoundedReader ρ IoError UInt8) (writer : Writer ω IoError UInt8)

def Pipe.readRestored (n : ℕ) : Machine (Pipe ρ ω) R7zError (List UInt8) := fun pipe =>
  ((Pipe.read reader n pipe).1.mapError restoreReadError, (Pipe.read reader n pipe).2)

def read (n : ℕ) : CopyM ρ ω υ (List UInt8) := do
  check control
  let copy ← get
  let size := copy.monitor.bufferSize n
  let bytes ← focus Copy.pipe (fun pipe copy => { copy with pipe }) (Pipe.readRestored reader size)
  advance control bytes.length
  pure bytes

def onPipe {ε α : Type} (m : Loops (Pipe ρ ω) ε α) : Loops (Copy ρ ω υ) ε α :=
  Loops.focus Copy.pipe (fun pipe copy => { copy with pipe }) m

def controlledTurn (total : UInt64) : Loops (Copy ρ ω υ) R7zError (UInt64 ⊕ UInt64) := do
  let bytes ← Loops.once (read control reader BUFFER_SIZE)
  if bytes.isEmpty then pure (.inr total)
  else do
    onPipe (Loops.mapError (fun _ => .io) (Pipe.writeAll writer bytes))
    let total ← Loops.once (ofExcept (Write.checkedAddU64 total (UInt64.ofNat bytes.length)))
    pure (.inl total)

def copyTo : Loops (Copy ρ ω υ) R7zError UInt64 := do
  let copy ← Loops.once get
  if copy.monitor.hasControl then Loops.loop (controlledTurn control reader writer) 0
  else onPipe (Loops.mapError (fun _ => .io) (ioCopy reader writer))

end

/-! What the reader and the writer do when they are asked once -/

inductive Event where
  | ended
  | interrupted
  | failed (e : IoError)
  | refused (e : IoError)
  | passed (bytes : List UInt8)

section
variable {ρ ω : Type} (reader : BoundedReader ρ IoError UInt8) (writer : Writer ω IoError UInt8)

inductive Happens (pipe : Pipe ρ ω) : Event → Pipe ρ ω → Prop where
  | ended {pipe'} (hread : Pipe.read reader BUFFER_SIZE pipe = (.ok [], pipe')) : Happens pipe .ended pipe'
  | interrupted {pipe'} (hread : Pipe.read reader BUFFER_SIZE pipe = (.error .interrupted, pipe')) :
    Happens pipe .interrupted pipe'
  | failed {e pipe'} (hread : Pipe.read reader BUFFER_SIZE pipe = (.error e, pipe'))
    (hother : e ≠ .interrupted) : Happens pipe (.failed e) pipe'
  | refused {bytes middle e pipe'} (hread : Pipe.read reader BUFFER_SIZE pipe = (.ok bytes, middle))
    (hsome : bytes ≠ []) (hwrite : (Pipe.writeAll writer bytes).EndsIn middle (.error e, pipe')) :
    Happens pipe (.refused e) pipe'
  | passed {bytes middle pipe'} (hread : Pipe.read reader BUFFER_SIZE pipe = (.ok bytes, middle))
    (hsome : bytes ≠ []) (hwrite : (Pipe.writeAll writer bytes).EndsIn middle (.ok (), pipe')) :
    Happens pipe (.passed bytes) pipe'

/-- From `start`, by reads that were not interrupted and writes that went well, to a pipe with so many
bytes behind it as can be counted. -/
inductive Reaches (start : Pipe ρ ω) : Pipe ρ ω → ℕ → Prop where
  | start : Reaches start start 0
  | passed {pipe n bytes pipe'} (h : Reaches start pipe n) (hpass : Happens reader writer pipe (.passed bytes) pipe')
    (hfits : n + bytes.length < 2 ^ 64) : Reaches start pipe' (n + bytes.length)

/-- Asked again as long as it is interrupted, the pipe fails, and nothing more was written. -/
inductive FailsAtOnce : Pipe ρ ω → Prop where
  | again {pipe pipe'} (h : Happens reader writer pipe .interrupted pipe') (hagain : FailsAtOnce pipe') :
    FailsAtOnce pipe
  | failed {pipe e pipe'} (h : Happens reader writer pipe (.failed e) pipe') : FailsAtOnce pipe
  | refused {pipe e pipe'} (h : Happens reader writer pipe (.refused e) pipe')
    (hnothing : pipe'.written = pipe.written) : FailsAtOnce pipe

inductive Disturbs (pipe : Pipe ρ ω) (n : ℕ) : Pipe ρ ω → Prop where
  | interrupted {pipe'} (h : Happens reader writer pipe .interrupted pipe') : Disturbs pipe n pipe'
  | uncounted {bytes pipe'} (h : Happens reader writer pipe (.passed bytes) pipe')
    (hlarge : 2 ^ 64 ≤ n + bytes.length) : Disturbs pipe n pipe'

/-- Nothing disturbs the pipe on the way, unless it fails at once from there on. -/
def Steady (start : Pipe ρ ω) : Prop :=
  ∀ pipe n pipe', Reaches reader writer start pipe n → Disturbs reader writer pipe n pipe' →
    FailsAtOnce reader writer pipe'

end

section
variable {ρ ω : Type} {reader : BoundedReader ρ IoError UInt8} {writer : Writer ω IoError UInt8}
  {start pipe pipe' : Pipe ρ ω}

theorem Pipe.read_length {n : ℕ} {bytes : List UInt8}
    (h : Pipe.read reader n pipe = (.ok bytes, pipe')) : bytes.length ≤ n := by
  obtain ⟨hread, -⟩ := Prod.mk.inj h
  change ((reader n pipe.reader).1.map Subtype.val) = .ok bytes at hread
  rcases hr : (reader n pipe.reader).1 with e | ⟨items, hitems⟩
  · rw [hr] at hread
    cases hread
  · rw [hr] at hread
    cases hread
    exact hitems

theorem Pipe.read_written {n : ℕ} {x : Except IoError (List UInt8)}
    (h : Pipe.read reader n pipe = (x, pipe')) : pipe'.written = pipe.written := by
  rw [← (Prod.mk.inj h).2]

theorem Pipe.write_logs : (Pipe.write writer : Writer (Pipe ρ ω) IoError UInt8).Logs Pipe.written := by
  intro bytes pipe
  have hlogs := Writer.logged_logs writer bytes (pipe.writer, pipe.written)
  unfold Pipe.write focus
  rcases hw : writer.logged bytes (pipe.writer, pipe.written) with ⟨e | n, s⟩
  · rw [hw] at hlogs
    exact hlogs
  · rw [hw] at hlogs
    exact hlogs

theorem Happens.unique {event event' : Event} {other : Pipe ρ ω}
    (h : Happens reader writer pipe event pipe') (h' : Happens reader writer pipe event' other) :
    event = event' ∧ pipe' = other := by
  -- reader and writer answer once, so two steps from one state are the same
  cases h with
  | ended hread =>
    cases h' with
    | ended hread' =>
      cases hread.symm.trans hread'
      exact ⟨rfl, rfl⟩
    | interrupted hread' | failed hread' => cases hread.symm.trans hread'
    | passed hread' hsome | refused hread' hsome =>
      cases hread.symm.trans hread'
      exact absurd rfl hsome
  | interrupted hread =>
    cases h' with
    | interrupted hread' =>
      cases hread.symm.trans hread'
      exact ⟨rfl, rfl⟩
    | failed hread' hother =>
      cases hread.symm.trans hread'
      exact absurd rfl hother
    | ended hread' | passed hread' | refused hread' => cases hread.symm.trans hread'
  | failed hread hother =>
    cases h' with
    | interrupted hread' =>
      cases hread.symm.trans hread'
      exact absurd rfl hother
    | failed hread' =>
      cases hread.symm.trans hread'
      exact ⟨rfl, rfl⟩
    | ended hread' | passed hread' | refused hread' => cases hread.symm.trans hread'
  | refused hread hsome hwrite =>
    cases h' with
    | ended hread' =>
      cases hread.symm.trans hread'
      exact absurd rfl hsome
    | interrupted hread' | failed hread' => cases hread.symm.trans hread'
    | refused hread' _ hwrite' =>
      cases hread.symm.trans hread'
      cases hwrite.unique hwrite'
      exact ⟨rfl, rfl⟩
    | passed hread' _ hwrite' =>
      cases hread.symm.trans hread'
      cases hwrite.unique hwrite'
  | passed hread hsome hwrite =>
    cases h' with
    | ended hread' =>
      cases hread.symm.trans hread'
      exact absurd rfl hsome
    | interrupted hread' | failed hread' => cases hread.symm.trans hread'
    | passed hread' _ hwrite' =>
      cases hread.symm.trans hread'
      cases hwrite.unique hwrite'
      exact ⟨rfl, rfl⟩
    | refused hread' _ hwrite' =>
      cases hread.symm.trans hread'
      cases hwrite.unique hwrite'

theorem Happens.written {event : Event} (h : Happens reader writer pipe event pipe') :
    ∃ more, pipe'.written = pipe.written ++ more ∧ ∀ bytes, event = .passed bytes → more ≠ [] := by
  cases h with
  | ended hread | interrupted hread | failed hread =>
    exact ⟨[], (Pipe.read_written hread).trans (List.append_nil _).symm, fun _ heq => nomatch heq⟩
  | refused hread hsome hwrite =>
    obtain ⟨taken, _, _, hlog, _⟩ := Pipe.write_logs.writeAll hwrite
    exact ⟨taken, hlog.trans (congrArg (· ++ taken) (Pipe.read_written hread)), fun _ heq => nomatch heq⟩
  | passed hread hsome hwrite =>
    have hlog := Pipe.write_logs.writeAll_ok hwrite
    exact ⟨_, hlog.trans (congrArg (· ++ _) (Pipe.read_written hread)), fun _ _ => hsome⟩

theorem Happens.length_le {bytes : List UInt8} (h : Happens reader writer pipe (.passed bytes) pipe') :
    bytes.length ≤ BUFFER_SIZE := by
  cases h with
  | passed hread hsome hwrite => exact Pipe.read_length hread

/-! The turns of the two copies, by what happens -/

def copyOutcome (len : UInt64) : Event → Except IoError (UInt64 ⊕ UInt64)
  | .ended => .ok (.inr len)
  | .interrupted => .ok (.inl len)
  | .failed e => .error e
  | .refused e => .error e
  | .passed bytes => .ok (.inl (len + UInt64.ofNat bytes.length))

theorem copyTurn_endsIn {len : UInt64} {x : Except IoError (UInt64 ⊕ UInt64)} :
    (copyTurn reader writer len).EndsIn pipe (x, pipe') ↔
      ∃ event, Happens reader writer pipe event pipe' ∧ x = copyOutcome len event := by
  unfold copyTurn
  rcases hread : Pipe.read reader BUFFER_SIZE pipe with ⟨e | bytes, middle⟩
  · have hattempt : (attempt (Pipe.read reader BUFFER_SIZE) : Machine _ IoError _) pipe =
        (.ok (.error e), middle) := by rw [attempt, hread]
    rw [Loops.once_bind hattempt]
    dsimp only
    split
    · next hinterrupted =>
      -- an interrupted read is tried again
      subst hinterrupted
      rw [Loops.pure_endsIn]
      constructor
      · intro h
        cases h
        exact ⟨.interrupted, .interrupted hread, rfl⟩
      · rintro ⟨event, hevent, rfl⟩
        obtain ⟨rfl, rfl⟩ := Happens.unique (.interrupted hread) hevent
        rfl
    · next hother =>
      rw [Loops.fail_endsIn]
      constructor
      · intro h
        cases h
        exact ⟨.failed e, .failed hread hother, rfl⟩
      · rintro ⟨event, hevent, rfl⟩
        obtain ⟨rfl, rfl⟩ := Happens.unique (.failed hread hother) hevent
        rfl
  · have hattempt : (attempt (Pipe.read reader BUFFER_SIZE) : Machine _ IoError _) pipe =
        (.ok (.ok bytes), middle) := by rw [attempt, hread]
    rw [Loops.once_bind hattempt]
    dsimp only
    cases bytes with
    | nil =>
      rw [if_pos (by rfl), Loops.pure_endsIn]
      constructor
      · intro h
        cases h
        exact ⟨.ended, .ended hread, rfl⟩
      · rintro ⟨event, hevent, rfl⟩
        obtain ⟨rfl, rfl⟩ := Happens.unique (.ended hread) hevent
        rfl
    | cons byte bytes =>
      rw [if_neg (by simp)]
      constructor
      · intro h
        rcases Loops.bind_endsIn h with ⟨_, _, hwrite, hrest⟩ | ⟨e, _, hwrite, ho⟩
        · cases Loops.pure_endsIn.mp hrest
          exact ⟨_, .passed hread (List.cons_ne_nil _ _) hwrite, rfl⟩
        · cases ho
          exact ⟨_, .refused hread (List.cons_ne_nil _ _) hwrite, rfl⟩
      · rintro ⟨event, hevent, rfl⟩
        cases hevent with
        | ended hread' | interrupted hread' | failed hread' => cases hread.symm.trans hread'
        | refused hread' _ hwrite =>
          cases hread.symm.trans hread'
          exact Loops.bind_of_error hwrite
        | passed hread' _ hwrite =>
          cases hread.symm.trans hread'
          exact Loops.bind_of_ok hwrite (Loops.pure_endsIn.mpr rfl)

def controlledOutcome (total : UInt64) : Event → Except R7zError (UInt64 ⊕ UInt64)
  | .ended => .ok (.inr total)
  | .interrupted => .error .io
  | .failed e => .error (restoreReadError e)
  | .refused _ => .error .io
  | .passed bytes => (Write.checkedAddU64 total (UInt64.ofNat bytes.length)).map .inl

variable (reader writer) in
def uncheckedTurn (total : UInt64) : Loops (Pipe ρ ω) R7zError (UInt64 ⊕ UInt64) := do
  let bytes ← Loops.once (Pipe.readRestored reader BUFFER_SIZE)
  if bytes.isEmpty then pure (.inr total)
  else do
    Loops.mapError (fun _ => .io) (Pipe.writeAll writer bytes)
    let total ← Loops.once (ofExcept (Write.checkedAddU64 total (UInt64.ofNat bytes.length)))
    pure (.inl total)

theorem counted_endsIn {counted : Except R7zError UInt64} {x : Except R7zError (UInt64 ⊕ UInt64)} :
    (do
      let total ← Loops.once (ofExcept counted)
      pure (.inl total) : Loops (Pipe ρ ω) R7zError (UInt64 ⊕ UInt64)).EndsIn pipe (x, pipe') ↔
        pipe' = pipe ∧ x = counted.map .inl := by
  cases counted with
  | error e =>
    have hcounted : (ofExcept (.error e) : Machine (Pipe ρ ω) R7zError UInt64) pipe = (.error e, pipe) := rfl
    rw [Loops.once_bind_error hcounted, Prod.mk.injEq]
    exact ⟨fun ⟨hx, hp⟩ => ⟨hp.symm, hx.symm⟩, fun ⟨hp, hx⟩ => ⟨hx.symm, hp.symm⟩⟩
  | ok total =>
    have hcounted : (ofExcept (.ok total) : Machine (Pipe ρ ω) R7zError UInt64) pipe = (.ok total, pipe) := rfl
    rw [Loops.once_bind hcounted, Loops.pure_endsIn, Prod.mk.injEq]
    exact ⟨fun ⟨hx, hp⟩ => ⟨hp.symm, hx.symm⟩, fun ⟨hp, hx⟩ => ⟨hx.symm, hp.symm⟩⟩

theorem uncheckedTurn_endsIn {total : UInt64} {x : Except R7zError (UInt64 ⊕ UInt64)} :
    (uncheckedTurn reader writer total).EndsIn pipe (x, pipe') ↔
      ∃ event, Happens reader writer pipe event pipe' ∧ x = controlledOutcome total event := by
  unfold uncheckedTurn
  rcases hread : Pipe.read reader BUFFER_SIZE pipe with ⟨e | bytes, middle⟩
  · -- an interrupted read is an error as any other here
    have hrestored : Pipe.readRestored reader BUFFER_SIZE pipe = (.error (restoreReadError e), middle) := by
      rw [Pipe.readRestored, hread]
      rfl
    rw [Loops.once_bind_error hrestored, Prod.mk.injEq]
    constructor
    · rintro ⟨rfl, rfl⟩
      by_cases hinterrupted : e = .interrupted
      · subst hinterrupted
        exact ⟨.interrupted, .interrupted hread, rfl⟩
      · exact ⟨.failed e, .failed hread hinterrupted, rfl⟩
    · rintro ⟨event, hevent, rfl⟩
      cases hevent with
      | ended hread' | refused hread' | passed hread' => cases hread.symm.trans hread'
      | interrupted hread' | failed hread' =>
        cases hread.symm.trans hread'
        exact ⟨rfl, rfl⟩
  · have hrestored : Pipe.readRestored reader BUFFER_SIZE pipe = (.ok bytes, middle) := by
      rw [Pipe.readRestored, hread]
      rfl
    rw [Loops.once_bind hrestored]
    cases bytes with
    | nil =>
      rw [if_pos (by rfl), Loops.pure_endsIn]
      constructor
      · intro h
        cases h
        exact ⟨.ended, .ended hread, rfl⟩
      · rintro ⟨event, hevent, rfl⟩
        obtain ⟨rfl, rfl⟩ := Happens.unique (.ended hread) hevent
        rfl
    | cons byte bytes =>
      rw [if_neg (by simp)]
      constructor
      · intro h
        rcases Loops.bind_endsIn h with ⟨_, _, hwrite, hrest⟩ | ⟨e, _, hwrite, ho⟩
        · obtain ⟨rfl, rfl⟩ := counted_endsIn.mp hrest
          obtain ⟨y, hy, hpassed⟩ := Loops.mapError_endsIn.mp hwrite
          cases y with
          | error e => cases hy
          | ok => exact ⟨_, .passed hread (List.cons_ne_nil _ _) hpassed, rfl⟩
        · cases ho
          obtain ⟨y, hy, hrefused⟩ := Loops.mapError_endsIn.mp hwrite
          cases y with
          | ok => cases hy
          | error e =>
            cases hy
            exact ⟨_, .refused hread (List.cons_ne_nil _ _) hrefused, rfl⟩
      · rintro ⟨event, hevent, rfl⟩
        cases hevent with
        | ended hread' | interrupted hread' | failed hread' => cases hread.symm.trans hread'
        | refused hread' _ hwrite =>
          cases hread.symm.trans hread'
          exact Loops.bind_of_error (Loops.mapError_endsIn.mpr ⟨_, rfl, hwrite⟩)
        | passed hread' _ hwrite =>
          cases hread.symm.trans hread'
          exact Loops.bind_of_ok (Loops.mapError_endsIn.mpr ⟨_, rfl, hwrite⟩)
            (counted_endsIn.mpr ⟨rfl, rfl⟩)

/-! The loops -/

section
variable (reader writer)

def copyLoop (len : UInt64) : Loops (Pipe ρ ω) IoError UInt64 := Loops.loop (copyTurn reader writer) len

def uncheckedLoop (total : UInt64) : Loops (Pipe ρ ω) R7zError UInt64 :=
  Loops.loop (uncheckedTurn reader writer) total

end

theorem Reaches.lt {n : ℕ} (h : Reaches reader writer start pipe n) : n < 2 ^ 64 := by
  cases h with
  | start => decide
  | passed _ _ hfits => exact hfits

theorem add_ofNat (n k : ℕ) : UInt64.ofNat n + UInt64.ofNat k = UInt64.ofNat (n + k) :=
  (UInt64.ofNat_add n k).symm

theorem Happens.counted {bytes : List UInt8} {n : ℕ} (hn : n < 2 ^ 64)
    (h : Happens reader writer pipe (.passed bytes) pipe') :
    Write.checkedAddU64 (UInt64.ofNat n) (UInt64.ofNat bytes.length) =
      if n + bytes.length < 2 ^ 64 then .ok (UInt64.ofNat (n + bytes.length)) else .error .parse := by
  have hlength : bytes.length < 2 ^ 64 := h.length_le.trans_lt (by decide)
  rw [Write.checkedAddU64, Write.checkedAdd, UInt64.toNat_ofNat_of_lt' hn,
    UInt64.toNat_ofNat_of_lt' hlength, add_ofNat]

theorem copyLoop_passed {bytes : List UInt8} (n : ℕ) (h : Happens reader writer pipe (.passed bytes) pipe')
    {o : Except IoError UInt64 × Pipe ρ ω} :
    (copyLoop reader writer (UInt64.ofNat n)).EndsIn pipe o ↔
      (copyLoop reader writer (UInt64.ofNat (n + bytes.length))).EndsIn pipe' o := by
  rw [← add_ofNat]
  exact Loops.loop_turn (copyTurn_endsIn.mpr ⟨_, h, rfl⟩)

theorem copyLoop_interrupted {len : UInt64} (h : Happens reader writer pipe .interrupted pipe')
    {o : Except IoError UInt64 × Pipe ρ ω} :
    (copyLoop reader writer len).EndsIn pipe o ↔ (copyLoop reader writer len).EndsIn pipe' o :=
  Loops.loop_turn (copyTurn_endsIn.mpr ⟨_, h, rfl⟩)

theorem uncheckedLoop_passed {bytes : List UInt8} {n : ℕ}
    (h : Happens reader writer pipe (.passed bytes) pipe') (hfits : n + bytes.length < 2 ^ 64)
    {o : Except R7zError UInt64 × Pipe ρ ω} :
    (uncheckedLoop reader writer (UInt64.ofNat n)).EndsIn pipe o ↔
      (uncheckedLoop reader writer (UInt64.ofNat (n + bytes.length))).EndsIn pipe' o := by
  have hn : n < 2 ^ 64 := (Nat.le_add_right n _).trans_lt hfits
  refine Loops.loop_turn (uncheckedTurn_endsIn.mpr ⟨_, h, ?_⟩)
  rw [controlledOutcome, h.counted hn, if_pos hfits]
  rfl

theorem Reaches.loops {n : ℕ} (h : Reaches reader writer start pipe n) :
    (∀ o, (copyLoop reader writer 0).EndsIn start o ↔
      (copyLoop reader writer (UInt64.ofNat n)).EndsIn pipe o) ∧
    ∀ o, (uncheckedLoop reader writer 0).EndsIn start o ↔
      (uncheckedLoop reader writer (UInt64.ofNat n)).EndsIn pipe o := by
  induction h with
  | start => exact ⟨fun _ => Iff.rfl, fun _ => Iff.rfl⟩
  | passed _ hpass hfits ih =>
    exact ⟨fun o => (ih.1 o).trans (copyLoop_passed _ hpass),
      fun o => (ih.2 o).trans (uncheckedLoop_passed hpass hfits)⟩

theorem Disturbs.stops {n : ℕ} (hn : n < 2 ^ 64) (h : Disturbs reader writer pipe n pipe') :
    ∃ e, (uncheckedLoop reader writer (UInt64.ofNat n)).EndsIn pipe (.error e, pipe') := by
  cases h with
  | interrupted h => exact ⟨_, Loops.loop_error (uncheckedTurn_endsIn.mpr ⟨_, h, rfl⟩)⟩
  | uncounted h hlarge =>
    refine ⟨.parse, Loops.loop_error (uncheckedTurn_endsIn.mpr ⟨_, h, ?_⟩)⟩
    rw [controlledOutcome, h.counted hn, if_neg (Nat.not_lt.mpr hlarge)]
    rfl

theorem Disturbs.goes_on {n : ℕ} (h : Disturbs reader writer pipe n pipe') :
    ∃ len, ∀ o, (copyLoop reader writer (UInt64.ofNat n)).EndsIn pipe o ↔
      (copyLoop reader writer len).EndsIn pipe' o := by
  cases h with
  | interrupted h => exact ⟨_, fun o => copyLoop_interrupted h⟩
  | uncounted h hlarge => exact ⟨_, fun o => copyLoop_passed n h⟩

theorem copyLoop_written {len : UInt64} {o : Except IoError UInt64 × Pipe ρ ω}
    (h : (copyLoop reader writer len).EndsIn pipe o) : pipe.written <+: o.2.written := by
  refine Loops.loop_induction (P := fun _ pipe o => pipe.written <+: o.2.written) ?_ ?_ ?_ h
  · intro len pipe count pipe' hturn
    obtain ⟨event, hevent, -⟩ := copyTurn_endsIn.mp hturn
    obtain ⟨more, hmore, -⟩ := hevent.written
    exact ⟨more, hmore.symm⟩
  · intro len pipe e pipe' hturn
    obtain ⟨event, hevent, -⟩ := copyTurn_endsIn.mp hturn
    obtain ⟨more, hmore, -⟩ := hevent.written
    exact ⟨more, hmore.symm⟩
  · intro len pipe len' pipe' o hturn _ ih
    obtain ⟨event, hevent, -⟩ := copyTurn_endsIn.mp hturn
    obtain ⟨more, hmore, -⟩ := hevent.written
    exact List.IsPrefix.trans ⟨more, hmore.symm⟩ ih

theorem failsAtOnce_iff (len : UInt64) : FailsAtOnce reader writer pipe ↔
    ∃ e pipe', (copyLoop reader writer len).EndsIn pipe (.error e, pipe') ∧
      pipe'.written = pipe.written := by
  constructor
  · intro h
    induction h with
    | again h _ ih =>
      obtain ⟨e, last, hend, hwritten⟩ := ih
      obtain ⟨more, hmore, -⟩ := h.written
      refine ⟨e, last, (copyLoop_interrupted h).mpr hend, hwritten.trans ?_⟩
      cases h with
      | interrupted hread => exact Pipe.read_written hread
    | failed h =>
      refine ⟨_, _, Loops.loop_error (copyTurn_endsIn.mpr ⟨_, h, rfl⟩), ?_⟩
      cases h with
      | failed hread => exact Pipe.read_written hread
    | refused h hnothing =>
      exact ⟨_, _, Loops.loop_error (copyTurn_endsIn.mpr ⟨_, h, rfl⟩), hnothing⟩
  · rintro ⟨e, pipe', hend, hwritten⟩
    revert hwritten
    suffices h : ∀ e', ((.error e : Except IoError UInt64), pipe').1 = .error e' →
        pipe'.written = pipe.written → FailsAtOnce reader writer pipe from h e rfl
    refine Loops.loop_induction (P := fun _ pipe o => ∀ e', o.1 = .error e' →
      o.2.written = pipe.written → FailsAtOnce reader writer pipe) ?_ ?_ ?_ hend
    · intro len pipe count pipe' _ e' he
      cases he
    · intro len pipe e pipe' hturn e' _ hwritten
      obtain ⟨event, hevent, hout⟩ := copyTurn_endsIn.mp hturn
      cases event with
      | ended | interrupted | passed => cases hout
      | failed e => exact .failed hevent
      | refused e => exact .refused hevent hwritten
    · intro len pipe len' pipe' o hturn hrest ih e' he hwritten
      obtain ⟨event, hevent, hout⟩ := copyTurn_endsIn.mp hturn
      cases event with
      | ended | failed | refused => cases hout
      | interrupted =>
        refine .again hevent (ih e' he (hwritten.trans ?_))
        cases hevent with
        | interrupted hread => exact (Pipe.read_written hread).symm
      | passed bytes =>
        -- what has passed is written, so that the end has more than the beginning
        obtain ⟨more, hmore, hsome⟩ := hevent.written
        obtain ⟨after, hafter⟩ := copyLoop_written hrest
        rw [hmore, hwritten, List.append_assoc, List.append_right_eq_self] at hafter
        exact absurd (List.append_eq_nil_iff.mp hafter).1 (hsome bytes rfl)

def Alike (o : Except IoError UInt64 × Pipe ρ ω) (o' : Except R7zError UInt64 × Pipe ρ ω) : Prop :=
  o.1.toOption = o'.1.toOption ∧ o.2.written = o'.2.written

/-- When nothing disturbs the pipe, the standard copy ends as the controlled one does. -/
theorem Steady.unchecked (hsteady : Steady reader writer start) {n : ℕ}
    (hreach : Reaches reader writer start pipe n) {o : Except R7zError UInt64 × Pipe ρ ω}
    (h : (uncheckedLoop reader writer (UInt64.ofNat n)).EndsIn pipe o) :
    ∃ o', (copyLoop reader writer (UInt64.ofNat n)).EndsIn pipe o' ∧ Alike o' o := by
  have hdisturbed {n : ℕ} {pipe pipe' : Pipe ρ ω} (hreach : Reaches reader writer start pipe n)
      (hdisturbs : Disturbs reader writer pipe n pipe') (e' : R7zError) :
      ∃ o', (copyLoop reader writer (UInt64.ofNat n)).EndsIn pipe o' ∧ Alike o' (.error e', pipe') := by
    obtain ⟨len, hgoes⟩ := hdisturbs.goes_on
    obtain ⟨e, last, hend, hwritten⟩ := (failsAtOnce_iff len).mp (hsteady _ _ _ hreach hdisturbs)
    exact ⟨_, (hgoes _).mpr hend, rfl, hwritten⟩
  refine Loops.loop_induction (P := fun total pipe o => ∀ n, total = UInt64.ofNat n →
    Reaches reader writer start pipe n →
      ∃ o', (copyLoop reader writer (UInt64.ofNat n)).EndsIn pipe o' ∧ Alike o' o) ?_ ?_ ?_ h n rfl hreach
  · rintro _ pipe count pipe' hturn n rfl hreach
    obtain ⟨event, hevent, hout⟩ := uncheckedTurn_endsIn.mp hturn
    cases event with
    | interrupted | failed | refused => cases hout
    | ended =>
      cases hout
      exact ⟨_, Loops.loop_done (copyTurn_endsIn.mpr ⟨_, hevent, rfl⟩), rfl, rfl⟩
    | passed bytes =>
      rw [controlledOutcome, hevent.counted hreach.lt] at hout
      split at hout <;> cases hout
  · rintro _ pipe e pipe' hturn n rfl hreach
    obtain ⟨event, hevent, hout⟩ := uncheckedTurn_endsIn.mp hturn
    cases event with
    | ended => cases hout
    | interrupted => exact hdisturbed hreach (.interrupted hevent) e
    | failed | refused =>
      exact ⟨_, Loops.loop_error (copyTurn_endsIn.mpr ⟨_, hevent, rfl⟩), rfl, rfl⟩
    | passed bytes =>
      rw [controlledOutcome, hevent.counted hreach.lt] at hout
      split at hout
      · cases hout
      · next hlarge => exact hdisturbed hreach (.uncounted hevent (Nat.not_lt.mp hlarge)) e
  · rintro _ pipe total' pipe' o hturn _ ih n rfl hreach
    obtain ⟨event, hevent, hout⟩ := uncheckedTurn_endsIn.mp hturn
    cases event with
    | ended | interrupted | failed | refused => cases hout
    | passed bytes =>
      rw [controlledOutcome, hevent.counted hreach.lt] at hout
      split at hout
      · next hfits =>
        cases hout
        obtain ⟨o', hend, halike⟩ := ih _ rfl (hreach.passed hevent hfits)
        exact ⟨o', (copyLoop_passed n hevent).mpr hend, halike⟩
      · cases hout

theorem unchecked_ends {n : ℕ} (hn : n < 2 ^ 64) {o : Except IoError UInt64 × Pipe ρ ω}
    (h : (copyLoop reader writer (UInt64.ofNat n)).EndsIn pipe o) :
    ∃ o', (uncheckedLoop reader writer (UInt64.ofNat n)).EndsIn pipe o' := by
  refine Loops.loop_induction (P := fun len pipe _ => ∀ n, len = UInt64.ofNat n → n < 2 ^ 64 →
    ∃ o', (uncheckedLoop reader writer (UInt64.ofNat n)).EndsIn pipe o') ?_ ?_ ?_ h n rfl hn
  · rintro _ pipe count pipe' hturn n rfl _
    obtain ⟨event, hevent, hout⟩ := copyTurn_endsIn.mp hturn
    cases event with
    | interrupted | failed | refused | passed => cases hout
    | ended => exact ⟨_, Loops.loop_done (uncheckedTurn_endsIn.mpr ⟨_, hevent, rfl⟩)⟩
  · rintro _ pipe e pipe' hturn n rfl _
    obtain ⟨event, hevent, hout⟩ := copyTurn_endsIn.mp hturn
    cases event with
    | ended | interrupted | passed => cases hout
    | failed | refused => exact ⟨_, Loops.loop_error (uncheckedTurn_endsIn.mpr ⟨_, hevent, rfl⟩)⟩
  · rintro _ pipe len' pipe' o hturn _ ih n rfl hn
    obtain ⟨event, hevent, hout⟩ := copyTurn_endsIn.mp hturn
    cases event with
    | ended | failed | refused => cases hout
    | interrupted => exact ⟨_, (Disturbs.stops hn (.interrupted hevent)).choose_spec⟩
    | passed bytes =>
      by_cases hfits : n + bytes.length < 2 ^ 64
      · obtain ⟨o', hend⟩ := ih _ ((Sum.inl.inj (Except.ok.inj hout)).trans (add_ofNat n _)) hfits
        exact ⟨o', (uncheckedLoop_passed hevent hfits).mpr hend⟩
      · exact ⟨_, (Disturbs.stops hn (.uncounted hevent (Nat.not_lt.mp hfits))).choose_spec⟩

/-- A copy comes to an end with this count, or fails, and these bytes are written then. -/
def Copies {σ ε : Type} (m : Loops σ ε UInt64) (written : σ → List UInt8) (s : σ) (count : Option UInt64)
    (bytes : List UInt8) : Prop :=
  ∃ o, m.EndsIn s o ∧ o.1.toOption = count ∧ written o.2 = bytes

theorem copies_alike_iff : (∀ count bytes,
      Copies (uncheckedLoop reader writer 0) Pipe.written start count bytes ↔
        Copies (copyLoop reader writer 0) Pipe.written start count bytes) ↔
    Steady reader writer start := by
  constructor
  · intro hsame pipe n pipe' hreach hdisturbs
    obtain ⟨hcopy, hunchecked⟩ := hreach.loops
    obtain ⟨e, hstops⟩ := hdisturbs.stops hreach.lt
    obtain ⟨⟨x, last⟩, hend, hnone, hwritten⟩ :=
      (hsame none pipe'.written).mp ⟨_, (hunchecked _).mpr hstops, rfl, rfl⟩
    obtain ⟨len, hgoes⟩ := hdisturbs.goes_on
    cases x with
    | ok count => cases hnone
    | error e' => exact (failsAtOnce_iff len).mpr ⟨e', last, (hgoes _).mp ((hcopy _).mp hend), hwritten⟩
  · intro hsteady count bytes
    constructor
    · rintro ⟨o, hend, hcount, hwritten⟩
      obtain ⟨o', hend', halike⟩ := hsteady.unchecked .start hend
      exact ⟨o', hend', halike.1.trans hcount, halike.2.trans hwritten⟩
    · rintro ⟨o, hend, hcount, hwritten⟩
      obtain ⟨o', hend'⟩ := unchecked_ends (n := 0) (by decide) hend
      obtain ⟨o'', hend'', halike⟩ := hsteady.unchecked .start hend'
      cases hend.unique hend''
      exact ⟨o', hend', halike.1.symm.trans hcount, halike.2.symm.trans hwritten⟩

/-! The monitor of a control that is not cancelled -/

variable {υ : Type} {control : Control υ}

def Copy.Active (copy : Copy ρ ω υ) : Prop := copy.monitor.hasControl = true ∧ copy.cancelled = false

/-- Nothing happens but that the monitor counts and the user is asked. -/
def Passes (m : CopyM ρ ω υ Unit) : Prop := ∀ copy : Copy ρ ω υ, copy.Active →
  ∃ copy', m copy = (.ok (), copy') ∧ copy'.Active ∧ copy'.pipe = copy.pipe

theorem Passes.bind {m m' : CopyM ρ ω υ Unit} (h : Passes m) (h' : Passes m') :
    Passes (m >>= fun _ => m') := by
  intro copy hactive
  obtain ⟨copy', hm, hactive', hpipe⟩ := h copy hactive
  obtain ⟨copy'', hm', hactive'', hpipe'⟩ := h' copy' hactive'
  exact ⟨copy'', (bind_of_ok hm).trans hm', hactive'', hpipe'.trans hpipe⟩

theorem ask_passes {question : υ → Bool × υ} (h : ∀ u, (question u).1 = false) :
    Passes (ask question : CopyM ρ ω υ Unit) := by
  rintro copy ⟨hcontrol, hcancelled⟩
  refine ⟨_, rfl, ⟨hcontrol, ?_⟩, rfl⟩
  change (copy.cancelled || (question copy.user).1) = false
  rw [hcancelled, h]
  rfl

theorem controlCheck_passes (hnever : control.NeverCancels) :
    Passes (controlCheck control : CopyM ρ ω υ Unit) := by
  refine (ask_passes hnever.cancels).bind fun copy hactive => ⟨copy, ?_, hactive, rfl⟩
  exact congrFun (if_neg (Bool.eq_false_iff.mp hactive.2)) copy

theorem check_passes (hnever : control.NeverCancels) : Passes (check control : CopyM ρ ω υ Unit) := by
  intro copy hactive
  obtain ⟨copy', hcheck, hafter⟩ := controlCheck_passes hnever copy hactive
  exact ⟨copy', (congrFun (if_pos hactive.1) copy).trans hcheck, hafter⟩

theorem report_passes (hnever : control.NeverCancels) (processed : UInt64) :
    Passes (report control processed : CopyM ρ ω υ Unit) := by
  intro copy hactive
  by_cases hdue : CHECK_INTERVAL ≤ (processed - copy.monitor.reported).toNat
  · have hcallback : Passes (match control.progress with
        | some callback => ask (callback { phase := copy.phase, bytesProcessed := processed })
        | none => pure () : CopyM ρ ω υ Unit) := by
      cases hprogress : control.progress with
      | none => exact fun copy hactive => ⟨copy, rfl, hactive, rfl⟩
      | some callback => exact ask_passes fun u => hnever.progress callback hprogress _ u
    obtain ⟨copy', hask, hafter⟩ := hcallback
      { copy with monitor := { copy.monitor with reported := processed } } hactive
    exact ⟨copy', (congrFun (if_pos hdue) copy).trans hask, hafter⟩
  · exact ⟨copy, congrFun (if_neg hdue) copy, hactive, rfl⟩

theorem advance_passes (hnever : control.NeverCancels) (bytes : ℕ) :
    Passes (advance control bytes : CopyM ρ ω υ Unit) := by
  intro copy hactive
  have hcount (processed : UInt64) : Passes (modify fun copy : Copy ρ ω υ =>
      { copy with monitor := { copy.monitor with processed } } : CopyM ρ ω υ Unit) :=
    fun copy hactive => ⟨_, rfl, hactive, rfl⟩
  obtain ⟨copy', hrun, hafter⟩ := (hcount _).bind
    ((report_passes hnever (saturatingAdd copy.monitor.processed (UInt64.ofNat bytes))).bind
      (controlCheck_passes hnever)) copy hactive
  exact ⟨copy', (congrFun (if_pos hactive.1) copy).trans hrun, hafter⟩

theorem read_passes (hnever : control.NeverCancels) (copy : Copy ρ ω υ) (hactive : copy.Active) :
    Prod.map id Copy.pipe (read control reader BUFFER_SIZE copy) =
        Pipe.readRestored reader BUFFER_SIZE copy.pipe ∧
      (read control reader BUFFER_SIZE copy).2.Active := by
  obtain ⟨copy₁, hcheck, hactive₁, hpipe₁⟩ := check_passes hnever copy hactive
  have hsize : copy₁.monitor.bufferSize BUFFER_SIZE = BUFFER_SIZE := by
    rw [OperationMonitor.bufferSize, if_pos hactive₁.1]
    rfl
  have hread : read control reader BUFFER_SIZE copy = (do
      let bytes ← focus Copy.pipe (fun pipe copy => { copy with pipe }) (Pipe.readRestored reader BUFFER_SIZE)
      advance control bytes.length
      pure bytes : CopyM ρ ω υ (List UInt8)) copy₁ := by
    refine (bind_of_ok hcheck).trans ?_
    change (do
      let bytes ← focus Copy.pipe (fun pipe copy => { copy with pipe })
        (Pipe.readRestored reader (copy₁.monitor.bufferSize BUFFER_SIZE))
      advance control bytes.length
      pure bytes : CopyM ρ ω υ (List UInt8)) copy₁ = _
    rw [hsize]
  rw [hread, ← hpipe₁, bind_apply, focus]
  rcases hpipe : Pipe.readRestored reader BUFFER_SIZE copy₁.pipe with ⟨e | bytes, pipe⟩
  · exact ⟨rfl, hactive₁⟩
  · obtain ⟨copy₂, hadvance, hactive₂, hpipe₂⟩ :=
      advance_passes hnever bytes.length { copy₁ with pipe } hactive₁
    have hlast : ((advance control bytes.length >>= fun _ => pure bytes : CopyM ρ ω υ (List UInt8))
        { copy₁ with pipe }) = (.ok bytes, copy₂) := bind_of_ok hadvance
    dsimp only
    rw [hlast]
    exact ⟨congrArg (Prod.mk _) hpipe₂, hactive₂⟩

theorem controlledTurn_projects (hnever : control.NeverCancels) (total : UInt64) :
    Loops.Projects (Copy.pipe : Copy ρ ω υ → Pipe ρ ω) Copy.Active
      (controlledTurn control reader writer total) (uncheckedTurn reader writer total) := by
  refine (Loops.Projects.once (read_passes hnever)).bind fun bytes => ?_
  split
  · exact Loops.Projects.pure _
  · refine Loops.Projects.bind (Loops.Projects.focus ?_ ?_) fun _ => ?_
    · exact fun _ _ => rfl
    · exact fun _ _ h => h
    · exact (Loops.Projects.ofExcept _).bind fun _ => Loops.Projects.pure _

theorem copyTo_controlled (hnever : control.NeverCancels) {copy : Copy ρ ω υ} (hactive : copy.Active)
    (count : Option UInt64) (bytes : List UInt8) :
    Copies (copyTo control reader writer) (fun copy => copy.pipe.written) copy count bytes ↔
      Copies (uncheckedLoop reader writer 0) Pipe.written copy.pipe count bytes := by
  have hends (o : Except R7zError UInt64 × Copy ρ ω υ) : (copyTo control reader writer).EndsIn copy o ↔
      (Loops.loop (controlledTurn control reader writer) 0).EndsIn copy o := by
    have hget : (get : CopyM ρ ω υ _) copy = (.ok copy, copy) := rfl
    rw [copyTo, Loops.once_bind hget, if_pos hactive.1]
  have hturn (total : UInt64) : Loops.Projects _ Copy.Active (controlledTurn control reader writer total)
    (uncheckedTurn reader writer total) := controlledTurn_projects hnever total
  have hprojects := Loops.Projects.loop hturn 0
  constructor
  · rintro ⟨⟨x, copy'⟩, hend, hcount, hwritten⟩
    exact ⟨_, (hprojects.endsIn hactive).mpr ⟨copy', rfl, (hends _).mp hend⟩, hcount, hwritten⟩
  · rintro ⟨⟨x, pipe⟩, hend, hcount, hwritten⟩
    obtain ⟨copy', rfl, hrun⟩ := (hprojects.endsIn hactive).mp hend
    exact ⟨_, (hends _).mpr hrun, hcount, hwritten⟩

theorem copyTo_uncontrolled {copy : Copy ρ ω υ} (hcontrol : copy.monitor.hasControl = false)
    (count : Option UInt64) (bytes : List UInt8) :
    Copies (copyTo control reader writer) (fun copy => copy.pipe.written) copy count bytes ↔
      Copies (copyLoop reader writer 0) Pipe.written copy.pipe count bytes := by
  have hends (x : Except R7zError UInt64) (copy' : Copy ρ ω υ) :
      (copyTo control reader writer).EndsIn copy (x, copy') ↔ ∃ pipe, copy' = { copy with pipe } ∧
        ∃ y, x = y.mapError (fun _ => .io) ∧ (copyLoop reader writer 0).EndsIn copy.pipe (y, pipe) := by
    have hget : (get : CopyM ρ ω υ _) copy = (.ok copy, copy) := rfl
    rw [copyTo, Loops.once_bind hget, if_neg (Bool.eq_false_iff.mp hcontrol), onPipe, Loops.focus_endsIn]
    simp only [Loops.mapError_endsIn]
    rfl
  constructor
  · rintro ⟨⟨x, copy'⟩, hend, hcount, hwritten⟩
    obtain ⟨pipe, rfl, y, rfl, hrun⟩ := (hends _ _).mp hend
    refine ⟨_, hrun, Eq.trans ?_ hcount, hwritten⟩
    cases y <;> rfl
  · rintro ⟨⟨y, pipe⟩, hend, hcount, hwritten⟩
    refine ⟨_, (hends _ _).mpr ⟨pipe, rfl, y, rfl, hend⟩, Eq.trans ?_ hcount, hwritten⟩
    cases y <;> rfl

end

section
variable {ρ ω υ : Type} (control : Control υ) (reader : BoundedReader ρ IoError UInt8)
  (writer : Writer ω IoError UInt8)

def Copy.uncontrolled (copy : Copy ρ ω υ) : Copy ρ ω υ :=
  { copy with monitor := { copy.monitor with hasControl := false } }

/-- With the control and without it the same bytes are copied, the count is the same, and it fails in the
same cases. -/
def ControlIsNeutral (copy : Copy ρ ω υ) : Prop := ∀ count bytes,
  Copies (copyTo control reader writer) (fun copy => copy.pipe.written) copy count bytes ↔
    Copies (copyTo control reader writer) (fun copy => copy.pipe.written) copy.uncontrolled count bytes

end

/-- A control that is not cancelled and whose callback always continues changes nothing, exactly when no
read on the way is interrupted and no more bytes are written than can be counted, or the pipe fails at
once after that. -/
theorem control_neutral_iff {ρ ω υ : Type} {control : Control υ} (reader : BoundedReader ρ IoError UInt8)
    (writer : Writer ω IoError UInt8) (hnever : control.NeverCancels) {copy : Copy ρ ω υ}
    (hcontrol : copy.monitor.hasControl = true) (hactive : copy.cancelled = false) :
    ControlIsNeutral control reader writer copy ↔ Steady reader writer copy.pipe := by
  rw [← copies_alike_iff]
  refine forall_congr' fun count => forall_congr' fun bytes => ?_
  rw [copyTo_controlled hnever ⟨hcontrol, hactive⟩, copyTo_uncontrolled rfl]
  rfl

def scripted : BoundedReader (List (Except IoError (List UInt8))) IoError UInt8 := fun n script =>
  match script with
  | [] => (.ok ⟨[], Nat.zero_le n⟩, [])
  | .ok bytes :: script => (.ok ⟨bytes.take n, List.length_take_le n bytes⟩, script)
  | .error e :: script => (.error e, script)

def takesAll : Writer Unit IoError UInt8 := fun bytes s => (.ok ⟨bytes.length, le_rfl⟩, s)

def idle : Control Unit := { cancels := fun _ => (false, ()), progress := none }

theorem idle_neverCancels : idle.NeverCancels :=
  ⟨fun _ => rfl, fun _ h => absurd h (Option.not_mem_none _)⟩

def scriptedCopy (script : List (Except IoError (List UInt8))) :
    Copy (List (Except IoError (List UInt8))) Unit Unit :=
  { pipe := { reader := script, writer := (), written := [] }, phase := .CopyOutput,
    monitor := OperationMonitor.new true, cancelled := false, user := () }

def shortReads : List (Except IoError (List UInt8)) := [.ok [1, 2], .ok [3]]

theorem scripted_read {ω : Type} {pipe pipe' : Pipe (List (Except IoError (List UInt8))) ω}
    {chunks : List (List UInt8)} (hreader : pipe.reader = chunks.map .ok) {x : Except IoError (List UInt8)}
    (h : Pipe.read scripted BUFFER_SIZE pipe = (x, pipe')) :
    ∃ (bytes : List UInt8) (rest : List (List UInt8)), x = .ok bytes ∧ pipe'.reader = rest.map .ok ∧
      bytes.length + rest.flatten.length ≤ chunks.flatten.length := by
  unfold Pipe.read focus BoundedReader.plain at h
  rw [hreader] at h
  cases chunks with
  | nil =>
    cases h
    exact ⟨[], [], rfl, rfl, le_rfl⟩
  | cons chunk chunks =>
    cases h
    refine ⟨_, chunks, rfl, rfl, ?_⟩
    rw [List.flatten_cons, List.length_append]
    exact Nat.add_le_add_right (List.length_take_le' _ _) _

theorem control_neutral_short_reads : ControlIsNeutral idle scripted takesAll (scriptedCopy shortReads) := by
  refine (control_neutral_iff scripted takesAll idle_neverCancels rfl rfl).mpr ?_
  -- no error is left in the script, and the bytes so far and those left are three at most
  have hleft : ∀ pipe n, Reaches scripted takesAll (scriptedCopy shortReads).pipe pipe n →
      ∃ chunks : List (List UInt8), pipe.reader = chunks.map .ok ∧ n + chunks.flatten.length ≤ 3 := by
    intro pipe n hreach
    induction hreach with
    | start => exact ⟨[[1, 2], [3]], rfl, le_rfl⟩
    | passed _ hpass _ ih =>
      obtain ⟨chunks, hreader, hlength⟩ := ih
      cases hpass with
      | passed hread _ hwrite =>
        obtain ⟨_, rest, heq, hrest, hless⟩ := scripted_read hreader hread
        cases heq
        have hkept := Writer.writeAll_keeps Pipe.reader (fun _ _ => rfl) hwrite
        exact ⟨rest, hkept.trans hrest, by omega⟩
  intro pipe n pipe' hreach hdisturbs
  obtain ⟨chunks, hreader, hlength⟩ := hleft pipe n hreach
  cases hdisturbs with
  | interrupted h =>
    cases h with
    | interrupted hread =>
      obtain ⟨_, _, heq, _⟩ := scripted_read hreader hread
      cases heq
  | uncounted h hlarge =>
    cases h with
    | passed hread _ _ =>
      obtain ⟨_, _, heq, _, hless⟩ := scripted_read hreader hread
      cases heq
      omega

/-- Where a read was interrupted before three bytes came, the copy without a control has three bytes and
the other one fails. -/
theorem interrupted_not_neutral :
    ¬∀ (ρ ω υ : Type) (control : Control υ) (reader : BoundedReader ρ IoError UInt8)
      (writer : Writer ω IoError UInt8) (copy : Copy ρ ω υ), control.NeverCancels →
      copy.monitor.hasControl = true → copy.cancelled = false →
      ControlIsNeutral control reader writer copy := by
  intro hall
  have hneutral := hall _ _ _ idle scripted takesAll (scriptedCopy [.error .interrupted, .ok [1, 2, 3]])
    idle_neverCancels rfl rfl
  have hplain : Copies (copyTo idle scripted takesAll) (fun copy => copy.pipe.written)
      (scriptedCopy [.error .interrupted, .ok [1, 2, 3]]).uncontrolled (some 3) [1, 2, 3] :=
    ⟨(.ok 3, _), ⟨8, rfl⟩, rfl, rfl⟩
  obtain ⟨o, hend, hcount, -⟩ := (hneutral (some 3) [1, 2, 3]).mpr hplain
  have hfails : ∃ copy, (copyTo idle scripted takesAll).EndsIn
      (scriptedCopy [.error .interrupted, .ok [1, 2, 3]]) (.error .io, copy) := ⟨_, 8, rfl⟩
  obtain ⟨copy, hfails⟩ := hfails
  cases hend.unique hfails
  cases hcount

end Copying

end R7z
