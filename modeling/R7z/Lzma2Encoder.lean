import R7z.AcceptedOptions
import R7z.Write.Lzma2

/-! What reaches the LZMA2 writers: exactly what was written to the encoder, whether the writer was chosen
at once or after some input. -/

namespace R7z

open Effect Effect.Machine Effect.Writer
open Options (CompressionOptions)
open Wire

namespace Lzma2

variable {ω σ π κ ρ : Type} {codecs : Options.Codecs} {writers : Lzma2Writers ω σ π κ ρ}

/-! The same writers with a record of what they took -/

/-- Every writer carries a record of the bytes it took, and hands it over when it is finished. -/
def Lzma2Writers.logged (writers : Lzma2Writers ω σ π κ ρ) :
    Lzma2Writers ω (σ × List UInt8) (π × List UInt8) κ (ρ × List UInt8) where
  memoryUsage := writers.memoryUsage
  setChunkSize := writers.setChunkSize
  newSingle out options := (writers.newSingle out options, [])
  newParallel out options workers := (writers.newParallel out options workers).map fun writer => (writer, [])
  setCancellation flag := focus Prod.fst (fun writer s => (writer, s.2)) (writers.setCancellation flag)
  writeSingle := writers.writeSingle.logged
  writeParallel := writers.writeParallel.logged
  flushSingle := focus Prod.fst (fun writer s => (writer, s.2)) writers.flushSingle
  flushParallel := focus Prod.fst (fun writer s => (writer, s.2)) writers.flushParallel
  finishSingle s := (writers.finishSingle s.1).map fun out => (out, s.2)
  finishParallel s := (writers.finishParallel s.1).map fun out => (out, s.2)

def BackEnd.passed : BackEnd (σ × List UInt8) (π × List UInt8) → List UInt8
  | .Single writer => writer.2
  | .Parallel writer => writer.2

def State.passed : State ω (σ × List UInt8) (π × List UInt8) → List UInt8
  | .Buffered _ _ _ _ => []
  | .Started backEnd => backEnd.passed

def State.waiting : State ω σ π → List UInt8
  | .Buffered _ _ _ data => data
  | .Started _ => []

namespace Encoder

def passed (encoder : Encoder ω (σ × List UInt8) (π × List UInt8) κ) : List UInt8 :=
  (encoder.state.map State.passed).getD []

def waiting (encoder : Encoder ω σ π κ) : List UInt8 := (encoder.state.map State.waiting).getD []

def taken (encoder : Encoder ω (σ × List UInt8) (π × List UInt8) κ) : List UInt8 :=
  encoder.passed ++ encoder.waiting

variable {encoder encoder' : Encoder ω (σ × List UInt8) (π × List UInt8) κ}

theorem cancelledBy_ok {control : Option κ} {writer writer' : π × List UInt8} {x : Except IoError Unit}
    (h : cancelledBy writers.logged control writer = (x, writer')) : writer'.2 = writer.2 := by
  cases control with
  | none => rw [← (Prod.mk.inj h).2]
  | some flag => rw [← (Prod.mk.inj h).2]

theorem start_ok {parallel : Bool} {control : Option κ} {state : State ω (σ × List UInt8) (π × List UInt8)}
    {backEnd : BackEnd (σ × List UInt8) (π × List UInt8)}
    (h : (start writers.logged parallel control state).EndsIn encoder (.ok backEnd, encoder')) :
    backEnd.passed = state.passed ++ state.waiting := by
  cases state with
  | Started started =>
    cases Loops.pure_endsIn.mp h
    exact (List.append_nil _).symm
  | Buffered out options workers data =>
    cases parallel with
    | false =>
      obtain ⟨writer, middle, hlocal, hpure⟩ := Loops.bind_ok.mp h
      cases Loops.pure_endsIn.mp hpure
      obtain ⟨-, hwrite⟩ := Loops.locally_ok.mp hlocal
      exact (logged_logs writers.writeSingle).writeAll_ok hwrite
    | true =>
      obtain ⟨created, first, hnew, h⟩ := Loops.bind_ok.mp h
      obtain ⟨writer, second, hlocal, hpure⟩ := Loops.bind_ok.mp h
      cases Loops.pure_endsIn.mp hpure
      obtain ⟨-, hlocal⟩ := Loops.locally_ok.mp hlocal
      obtain ⟨_, flagged, hflag, hwrite⟩ := Loops.bind_ok.mp hlocal
      -- the record of a new writer is empty
      have hcreated : created.2 = [] := by
        obtain ⟨_, -, rfl⟩ := except_map_eq_ok.mp (Prod.mk.inj (Loops.once_endsIn.mp hnew)).1
        rfl
      have hpassed := (logged_logs writers.writeParallel).writeAll_ok (Loops.mapError_ok.mp hwrite)
      rw [cancelledBy_ok (Loops.once_endsIn.mp hflag), hcreated] at hpassed
      exact hpassed

/-- A computation that adds to the record of a writer adds to what the encoder passed on. -/
theorem onBackEnd_ok {α : Type} {backEnd : BackEnd (σ × List UInt8) (π × List UInt8)}
    {single : Machine (σ × List UInt8) IoError α} {parallel : Machine (π × List UInt8) IoError α}
    (added : α → List UInt8)
    (hsingle : ∀ writer a writer', single writer = (.ok a, writer') → writer'.2 = writer.2 ++ added a)
    (hparallel : ∀ writer a writer', parallel writer = (.ok a, writer') → writer'.2 = writer.2 ++ added a)
    {a : α} (h : onBackEnd backEnd single parallel encoder = (.ok a, encoder')) :
    encoder'.passed = backEnd.passed ++ added a ∧ encoder'.waiting = [] := by
  cases backEnd with
  | Single writer =>
    obtain ⟨hok, rfl⟩ := Prod.mk.inj h
    exact ⟨hsingle writer a _ (Prod.ext hok rfl), rfl⟩
  | Parallel writer =>
    obtain ⟨hok, rfl⟩ := Prod.mk.inj h
    exact ⟨hparallel writer a _ (Prod.ext hok rfl), rfl⟩

theorem mapError_eq_ok {α ε ε' : Type} {f : ε → ε'} {x : Except ε α} {a : α} :
    x.mapError f = .ok a ↔ x = .ok a := by
  cases x <;> simp [Except.mapError]

theorem restored_ok {α : Type} {m : Machine π EncoderError α} {writer writer' : π} {a : α} :
    restored m writer = (.ok a, writer') ↔ m writer = (.ok a, writer') := by
  unfold restored
  rw [Prod.mk.injEq, mapError_eq_ok, ← Prod.mk.injEq]

theorem logged_ok {τ ε : Type} {w : Writer τ ε UInt8} {buf : List UInt8} {s s' : τ × List UInt8}
    {n : { n : ℕ // n ≤ buf.length }} (h : w.logged buf s = (.ok n, s')) : s'.2 = s.2 ++ buf.take n.val := by
  have hlogs := logged_logs w buf s
  rw [h] at hlogs
  exact hlogs

theorem writeStarted_ok {buf : List UInt8} {backEnd : BackEnd (σ × List UInt8) (π × List UInt8)}
    {n : { n : ℕ // n ≤ buf.length }}
    (h : (writeStarted writers.logged buf backEnd).EndsIn encoder (.ok n, encoder')) :
    encoder'.passed = backEnd.passed ++ buf.take n.val ∧ encoder'.waiting = [] := by
  refine onBackEnd_ok (fun n => buf.take n.val) ?_ ?_ (Loops.once_endsIn.mp h)
  · exact fun writer n writer' hwrite => logged_ok hwrite
  · exact fun writer n writer' hwrite => logged_ok (restored_ok.mp hwrite)

theorem flushStarted_ok {backEnd : BackEnd (σ × List UInt8) (π × List UInt8)}
    (h : (flushStarted writers.logged backEnd).EndsIn encoder (.ok (), encoder')) :
    encoder'.passed = backEnd.passed ∧ encoder'.waiting = [] := by
  rw [← List.append_nil backEnd.passed]
  refine onBackEnd_ok (fun _ => []) ?_ ?_ (Loops.once_endsIn.mp h)
  · intro writer _ writer' hflush
    rw [← (Prod.mk.inj hflush).2, List.append_nil]
  · intro writer _ writer' hflush
    rw [← (Prod.mk.inj (restored_ok.mp hflush)).2, List.append_nil]

theorem startTaken_ok {parallel : Bool} {control : Option κ}
    {state : State ω (σ × List UInt8) (π × List UInt8)}
    {backEnd : BackEnd (σ × List UInt8) (π × List UInt8)}
    (h : (startTaken writers.logged parallel control state).EndsIn encoder (.ok backEnd, encoder')) :
    backEnd.passed = state.passed ++ state.waiting := by
  obtain ⟨_, _, -, hstart⟩ := Loops.bind_ok.mp h
  exact start_ok hstart

theorem taken_of_state {state : State ω (σ × List UInt8) (π × List UInt8)}
    (hstate : encoder.state = some state) : encoder.taken = state.passed ++ state.waiting := by
  simp [taken, passed, waiting, hstate]

theorem write_ok {buf : List UInt8} {n : { n : ℕ // n ≤ buf.length }}
    (h : (write writers.logged buf).EndsIn encoder (.ok n, encoder')) :
    encoder'.taken = encoder.taken ++ buf.take n.val := by
  obtain ⟨_, _, hget, h⟩ := Loops.bind_ok.mp h
  cases Loops.once_endsIn.mp hget
  rcases hstate : encoder.state with _ | ⟨out, options, workers, data⟩ | backEnd
  · rw [hstate] at h
    cases Loops.fail_endsIn.mp h
  · rw [hstate] at h
    rw [taken_of_state hstate]
    dsimp only at h
    split at h
    · obtain ⟨_, middle, hmodify, hpure⟩ := Loops.bind_ok.mp h
      cases Loops.once_endsIn.mp hmodify
      cases Loops.pure_endsIn.mp hpure
      rw [taken_of_state rfl, List.take_length]
      rfl
    · obtain ⟨backEnd, middle, hstart, hwrite⟩ := Loops.bind_ok.mp h
      obtain ⟨hpassed, hwaiting⟩ := writeStarted_ok hwrite
      rw [taken, hpassed, hwaiting, List.append_nil, startTaken_ok hstart]
  · rw [hstate] at h
    obtain ⟨hpassed, hwaiting⟩ := writeStarted_ok h
    rw [taken_of_state hstate, taken, hpassed, hwaiting]
    simp [State.passed, State.waiting]

theorem flush_ok (h : (flush writers.logged).EndsIn encoder (.ok (), encoder')) :
    encoder'.taken = encoder.taken ∧ encoder'.waiting = [] := by
  obtain ⟨_, _, hget, h⟩ := Loops.bind_ok.mp h
  cases Loops.once_endsIn.mp hget
  rcases hstate : encoder.state with _ | ⟨out, options, workers, data⟩ | backEnd
  · rw [hstate] at h
    cases Loops.fail_endsIn.mp h
  · rw [hstate] at h
    obtain ⟨backEnd, middle, hstart, hflush⟩ := Loops.bind_ok.mp h
    obtain ⟨hpassed, hwaiting⟩ := flushStarted_ok hflush
    refine ⟨?_, hwaiting⟩
    rw [taken_of_state hstate, taken, hpassed, hwaiting, List.append_nil, startTaken_ok hstart]
  · rw [hstate] at h
    obtain ⟨hpassed, hwaiting⟩ := flushStarted_ok h
    refine ⟨?_, hwaiting⟩
    rw [taken_of_state hstate, taken, hpassed, hwaiting]
    rfl

theorem finish_ok {out : ρ × List UInt8} (h : (finish writers.logged).EndsIn encoder (.ok out, encoder')) :
    out.2 = encoder.taken := by
  obtain ⟨_, _, hget, h⟩ := Loops.bind_ok.mp h
  cases Loops.once_endsIn.mp hget
  cases hstate : encoder.state with
  | none =>
    rw [hstate] at h
    cases Loops.fail_endsIn.mp h
  | some state =>
    rw [hstate] at h
    obtain ⟨backEnd, middle, hstart, hfinish⟩ := Loops.bind_ok.mp h
    obtain ⟨hout, -⟩ := Prod.mk.inj (Loops.once_endsIn.mp hfinish)
    rw [taken_of_state hstate, ← startTaken_ok hstart]
    cases backEnd with
    | Single writer =>
      obtain ⟨_, -, rfl⟩ := except_map_eq_ok.mp hout
      rfl
    | Parallel writer =>
      obtain ⟨_, -, rfl⟩ := except_map_eq_ok.mp (mapError_eq_ok.mp hout)
      rfl

/-! Runs -/

theorem new_taken {host : Host} {out : ω} {compression : CompressionOptions} {limit knownSize : Option UInt64}
    {request : ThreadRequest}
    (h : new codecs writers.logged host out compression limit knownSize request = .ok encoder) :
    encoder.taken = [] := by
  obtain ⟨workers, -, h⟩ := except_bind_eq_ok.mp h
  obtain ⟨state, hstate, h⟩ := except_bind_eq_ok.mp h
  obtain rfl := Except.ok.inj h
  rw [taken_of_state rfl]
  split at hstate
  · obtain rfl := Except.ok.inj hstate
    rfl
  · split at hstate
    · obtain ⟨writer, hwriter, hstate⟩ := except_bind_eq_ok.mp hstate
      obtain rfl := Except.ok.inj hstate
      obtain ⟨_, -, rfl⟩ := except_map_eq_ok.mp (mapError_eq_ok.mp hwriter)
      rfl
    · obtain rfl := Except.ok.inj hstate
      rfl

theorem withControl_taken {control : Option κ}
    (h : withControl writers.logged control encoder = (.ok (), encoder')) : encoder'.taken = encoder.taken := by
  obtain ⟨_, _, hget, h⟩ := bind_eq_ok.mp h
  cases hget
  obtain ⟨_, middle, htell, hmodify⟩ := bind_eq_ok.mp h
  cases hmodify
  change middle.taken = encoder.taken
  rcases hstate : encoder.state with _ | ⟨out, options, workers, data⟩ | backEnd
  · rw [hstate] at htell
    rw [(Prod.mk.inj htell).2]
  · rw [hstate] at htell
    rw [(Prod.mk.inj htell).2]
  · rw [hstate] at htell
    obtain ⟨hpassed, hwaiting⟩ := onBackEnd_ok (fun _ => []) (fun writer _ writer' hw => by
      rw [← (Prod.mk.inj hw).2, List.append_nil]) (fun writer _ writer' hw => by
      rw [cancelledBy_ok hw, List.append_nil]) htell
    rw [taken_of_state hstate, taken, hpassed, hwaiting]
    simp [State.passed, State.waiting]

end Encoder

inductive Call where
  | Write (buf : List UInt8)
  | Flush

def Call.accepted (writers : Lzma2Writers ω σ π κ ρ) :
    Call → Loops (Encoder ω σ π κ) IoError (List UInt8)
  | .Write buf => do
    let n ← Encoder.write writers buf
    pure (buf.take n.val)
  | .Flush => do
    Encoder.flush writers
    pure []

def acceptedBy (writers : Lzma2Writers ω σ π κ ρ) :
    List Call → Loops (Encoder ω σ π κ) IoError (List UInt8)
  | [] => pure []
  | call :: calls => do
    let first ← call.accepted writers
    let rest ← acceptedBy writers calls
    pure (first ++ rest)

structure Settings (ω κ : Type) where
  host : Host
  out : ω
  compression : CompressionOptions
  encoderMemoryLimit : Option UInt64
  knownSize : Option UInt64
  threadRequest : ThreadRequest
  control : Option κ

def Created (codecs : Options.Codecs) (writers : Lzma2Writers ω σ π κ ρ) (settings : Settings ω κ)
    (encoder : Encoder ω σ π κ) : Prop :=
  ∃ fresh, Encoder.new codecs writers settings.host settings.out settings.compression
      settings.encoderMemoryLimit settings.knownSize settings.threadRequest = .ok fresh ∧
    Encoder.withControl writers settings.control fresh = (.ok (), encoder)

variable {settings : Settings ω κ} {encoder encoder' : Encoder ω (σ × List UInt8) (π × List UInt8) κ}

theorem Created.taken (h : Created codecs writers.logged settings encoder) : encoder.taken = [] := by
  obtain ⟨fresh, hnew, hcontrol⟩ := h
  rw [Encoder.withControl_taken hcontrol, Encoder.new_taken hnew]

theorem Call.accepted_taken {call : Call} {bytes : List UInt8}
    (h : (call.accepted writers.logged).EndsIn encoder (.ok bytes, encoder')) :
    encoder'.taken = encoder.taken ++ bytes := by
  cases call with
  | Write buf =>
    obtain ⟨n, middle, hwrite, hpure⟩ := Loops.bind_ok.mp h
    cases Loops.pure_endsIn.mp hpure
    exact Encoder.write_ok hwrite
  | Flush =>
    obtain ⟨_, middle, hflush, hpure⟩ := Loops.bind_ok.mp h
    cases Loops.pure_endsIn.mp hpure
    rw [(Encoder.flush_ok hflush).1, List.append_nil]

theorem acceptedBy_taken {calls : List Call} {bytes : List UInt8}
    (h : (acceptedBy writers.logged calls).EndsIn encoder (.ok bytes, encoder')) :
    encoder'.taken = encoder.taken ++ bytes := by
  induction calls generalizing encoder bytes with
  | nil =>
    cases Loops.pure_endsIn.mp h
    rw [List.append_nil]
  | cons call calls ih =>
    obtain ⟨first, middle, hcall, h⟩ := Loops.bind_ok.mp h
    obtain ⟨rest, last, hrest, hpure⟩ := Loops.bind_ok.mp h
    cases Loops.pure_endsIn.mp hpure
    rw [ih hrest, Call.accepted_taken hcall, List.append_assoc]

/-- A whole run: the encoder is made, called and finished, with what its writer took by then. -/
def Encodes (codecs : Options.Codecs) (writers : Lzma2Writers ω σ π κ ρ) (settings : Settings ω κ) (calls : List Call)
    (accepted passed : List UInt8) : Prop :=
  ∃ encoder encoder' out last, Created codecs writers.logged settings encoder ∧
    (acceptedBy writers.logged calls).EndsIn encoder (.ok accepted, encoder') ∧
    (Encoder.finish writers.logged).EndsIn encoder' (.ok (out, passed), last)

theorem Encodes.passed_eq {calls : List Call} {accepted passed : List UInt8}
    (h : Encodes codecs writers settings calls accepted passed) : passed = accepted := by
  obtain ⟨encoder, encoder', out, last, hcreated, hcalls, hfinish⟩ := h
  have hpassed : passed = encoder'.taken := Encoder.finish_ok hfinish
  rw [hpassed, acceptedBy_taken hcalls, hcreated.taken, List.nil_append]

/-- At every time the writer has a front of what was accepted and the rest waits for it. It is finished
when it has all of it, so that two runs that accept the same pass on the same. -/
theorem accepted_passed_on {calls : List Call} {accepted : List UInt8}
    (hcreated : Created codecs writers.logged settings encoder)
    (hcalls : (acceptedBy writers.logged calls).EndsIn encoder (.ok accepted, encoder')) :
    encoder'.passed ++ encoder'.waiting = accepted ∧
      (∀ out passed last, (Encoder.finish writers.logged).EndsIn encoder' (.ok (out, passed), last) →
        passed = accepted) ∧
      ∀ settings' calls' passed passed', Encodes codecs writers settings calls accepted passed →
        Encodes codecs writers settings' calls' accepted passed' → passed = passed' := by
  refine ⟨?_, ?_, ?_⟩
  · have htaken := acceptedBy_taken hcalls
    rwa [hcreated.taken, List.nil_append] at htaken
  · intro out passed last hfinish
    exact Encodes.passed_eq ⟨_, _, out, last, hcreated, hcalls, hfinish⟩
  · intro settings' calls' passed passed' h h'
    exact h.passed_eq.trans h'.passed_eq.symm

def takingWriters : Lzma2Writers Unit Unit Unit Unit Unit where
  memoryUsage _ := 186 * 1024
  setChunkSize _ size := size
  newSingle _ _ := ()
  newParallel _ _ _ := .ok ()
  setCancellation _ := pure ()
  writeSingle := full
  writeParallel := full
  flushSingle := pure ()
  flushParallel := pure ()
  finishSingle _ := .ok ()
  finishParallel _ := .ok ()

def deferredSettings : Settings Unit Unit where
  host := { availableParallelism := some 4, defaultBudget := 1024 * 1024 * 1024 }
  out := ()
  compression := { CompressionOptions.default with
    dictionarySize := some 4096, lzma2ChunkSize := some ⟨4096, by decide⟩ }
  encoderMemoryLimit := none
  knownSize := none
  threadRequest := .Fixed ⟨2, by decide⟩
  control := some ()

def deferredOptions : Lzma2Options := lzma2Options plainCodecs takingWriters.logged deferredSettings.compression

theorem deferred_workers : selectWorkers takingWriters.logged deferredSettings.host none deferredOptions none
    deferredSettings.threadRequest = .ok 2 := by decide +kernel

def deferredEncoder (state : State Unit (Unit × List UInt8) (Unit × List UInt8)) :
    Encoder Unit (Unit × List UInt8) (Unit × List UInt8) Unit where
  state := some state
  control := some ()

theorem deferred_created : Created plainCodecs takingWriters.logged deferredSettings
    (deferredEncoder (.Buffered () deferredOptions 2 [])) := by
  refine ⟨{ state := some (.Buffered () deferredOptions 2 []), control := none }, ?_, rfl⟩
  exact except_bind_eq_ok.mpr ⟨2, deferred_workers, except_bind_eq_ok.mpr ⟨_, rfl, rfl⟩⟩

theorem deferred_accepted :
    (acceptedBy takingWriters.logged [.Write [1, 2], .Write [3], .Flush, .Write [4]]).EndsIn
      (deferredEncoder (.Buffered () deferredOptions 2 []))
      (.ok [1, 2, 3, 4], deferredEncoder (.Started (.Single ((), [1, 2, 3, 4])))) :=
  ⟨5, by with_unfolding_all rfl⟩

theorem accepted_passed_on_deferred :
    (deferredEncoder (.Started (.Single ((), [1, 2, 3, 4])))).passed ++
        (deferredEncoder (.Started (.Single ((), [1, 2, 3, 4])))).waiting = [1, 2, 3, 4] :=
  (accepted_passed_on deferred_created deferred_accepted).1

end Lzma2

end R7z
