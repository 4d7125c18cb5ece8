import R7z.Effect.Reader
import R7z.Decode.Plan

/-! The readers between the coders of a chain. Each coder whose output size is known stands behind a
reader that holds it to this size, and the next coder reads from there. -/

namespace R7z

open Effect Effect.Machine Effect.Reader

structure ExactSizeReader (σ : Type) where
  inner : σ
  remaining : ℕ
  fin : OutputEnd

def ExactSizeReader.read {σ : Type} (inner : BoundedReader σ IoError UInt8) :
    BoundedReader (ExactSizeReader σ) IoError UInt8 := fun n reader =>
  if n = 0 then (.ok ⟨[], Nat.zero_le n⟩, reader)
  else if reader.remaining = 0 then
    match reader.fin with
    | .Sized => (.ok ⟨[], Nat.zero_le n⟩, reader)
    -- the end has to be where the size says: one byte more is asked for
    | .Terminated =>
      match inner 1 reader.inner with
      | (.ok bytes, s) =>
        (if bytes.val = [] then .ok ⟨[], Nat.zero_le n⟩ else .error .invalidData,
          { reader with inner := s })
      | (.error e, s) => (.error e, { reader with inner := s })
  else
    match inner (min reader.remaining n) reader.inner with
    | (.ok bytes, s) =>
      (if bytes.val = [] then .error .unexpectedEof
        else .ok ⟨bytes.val, bytes.property.trans (min_le_right _ _)⟩,
        { reader with inner := s, remaining := reader.remaining - bytes.val.length })
    | (.error e, s) => (.error e, { reader with inner := s })

/-- A call of such a reader: the room it was given, what the decoder answered if it was asked, and the
answer of the reader. -/
structure Call where
  room : ℕ
  decoder : Option (Except IoError (List UInt8))
  answer : Except IoError (List UInt8)

namespace Call

def given (calls : List Call) : List UInt8 := delivered (calls.map Call.answer)

def decoded (calls : List Call) : List UInt8 := delivered (calls.filterMap Call.decoder)

/-- A call after others that did not fail, of a reader that was opened with this size. -/
structure Exact (size : ℕ) (fin : OutputEnd) (before : List Call) (call : Call) : Prop where
  given_eq : given before = decoded before
  within : (given before).length ≤ size
  bytes : ∀ bytes, call.answer = .ok bytes → bytes ≠ [] →
    call.decoder = some (.ok bytes) ∧ (given before ++ bytes).length ≤ size
  ended : call.answer = .ok [] → 0 < call.room →
    (given before).length = size ∧ (fin = .Terminated → call.decoder = some (.ok []))
  short : call.decoder = some (.ok []) → (given before).length < size → ∃ e, call.answer = .error e
  long : ∀ bytes, call.decoder = some (.ok bytes) → bytes ≠ [] → (given before).length = size →
    ∃ e, call.answer = .error e

def Succeeds (call : Call) : Prop := ∃ bytes, call.answer = .ok bytes

/-- All calls up to and with the first that fails. -/
def AllExact (size : ℕ) (fin : OutputEnd) (calls : List Call) : Prop :=
  ∀ before call after, calls = before ++ call :: after → (∀ c ∈ before, c.Succeeds) →
    Exact size fin before call

end Call

def remembered {σ : Type} (inner : BoundedReader σ IoError UInt8) :
    BoundedReader (σ × Option (Except IoError (List UInt8))) IoError UInt8 := fun n s =>
  ((inner n s.1).1, (inner n s.1).2, some ((inner n s.1).1.map Subtype.val))

/-- An open coder: its decoder, or none when it copies, what remains of its size, when that is known, and
what it was asked so far. -/
structure OpenCoder (δ : Type) where
  decoder : Option δ
  remaining : Option ℕ
  calls : List Call

/-- The coders of a chain, the last one first, on top of the packed stream. -/
def Chain (δ ρ : Type) : List DecodeStep → Type
  | [] => ρ
  | _ :: below => OpenCoder δ × Chain δ ρ below

/-- The codecs: how a decoder is opened and how it answers a read, both by reading from below. -/
structure Codecs (δ ρ : Type) where
  packed : BoundedReader ρ IoError UInt8
  new : DecodeStep → Asks IoError UInt8 (Except R7zError δ)
  decode : (n : ℕ) → δ → Asks IoError UInt8 (Except IoError { bytes : List UInt8 // bytes.length ≤ n } × δ)

variable {δ ρ σ : Type}

def DecodeStep.exactSize (step : DecodeStep) : Option ℕ :=
  match step.coder, step.output with
  | .Ppmd _ _ size, _ => some size.toNat
  | _, .Known size => some size.toNat
  | _, .Unknown => none

namespace Codecs

variable (codecs : Codecs δ ρ)

def readDecoder (below : BoundedReader σ IoError UInt8) : BoundedReader (Option δ × σ) IoError UInt8 :=
  fun n s =>
    match s.1 with
    | none => ((below n s.2).1, none, (below n s.2).2)
    | some decoder =>
      let run := (codecs.decode n decoder).run below s.2
      (run.1.1, some run.1.2, run.2)

def readCoder (step : DecodeStep) (below : BoundedReader σ IoError UInt8) :
    BoundedReader (OpenCoder δ × σ) IoError UInt8 := fun n s =>
  match s.1.remaining with
  | none =>
    let run := remembered (codecs.readDecoder below) n ((s.1.decoder, s.2), none)
    (run.1, { decoder := run.2.1.1, remaining := none,
              calls := s.1.calls ++ [⟨n, run.2.2, run.1.map Subtype.val⟩] }, run.2.1.2)
  | some remaining =>
    let run := ExactSizeReader.read (remembered (codecs.readDecoder below)) n
      ⟨((s.1.decoder, s.2), none), remaining, step.coder.outputEnd⟩
    (run.1, { decoder := run.2.inner.1.1, remaining := some run.2.remaining,
              calls := s.1.calls ++ [⟨n, run.2.inner.2, run.1.map Subtype.val⟩] }, run.2.inner.1.2)

def read : (steps : List DecodeStep) → BoundedReader (Chain δ ρ steps) IoError UInt8
  | [] => codecs.packed
  | step :: below => codecs.readCoder step (read below)

def openStep (step : DecodeStep) {below : List DecodeStep} (chain : Chain δ ρ below) :
    Except R7zError (Chain δ ρ (step :: below)) :=
  match step.coder with
  | .Copy => .ok ({ decoder := none, remaining := step.exactSize, calls := [] }, chain)
  | _ =>
    let run := (codecs.new step).run (codecs.read below) chain
    match run.1 with
    | .error e => .error e
    | .ok decoder => .ok ({ decoder := some decoder, remaining := step.exactSize, calls := [] }, run.2)

def openChain : (steps : List DecodeStep) → ρ → Except R7zError (Chain δ ρ steps)
  | [], source => .ok source
  | step :: below, source => do
    let chain ← openChain below source
    openStep codecs step chain

end Codecs

/-! What one read can do -/

/-- The answer of the decoder, when it is asked, and of the reader, and what remains. -/
inductive OneRead (n : ℕ) (fin : OutputEnd) (remaining : ℕ) :
    Option (Except IoError (List UInt8)) → Except IoError (List UInt8) → ℕ → Prop where
  | empty (hn : n = 0) : OneRead n fin remaining none (.ok []) remaining
  | sized (hdone : remaining = 0) (hfin : fin = .Sized) : OneRead n fin remaining none (.ok []) remaining
  | ended (hdone : remaining = 0) : OneRead n fin remaining (some (.ok [])) (.ok []) remaining
  | exceeds {bytes : List UInt8} (hdone : remaining = 0) (hbytes : bytes ≠ []) :
    OneRead n fin remaining (some (.ok bytes)) (.error .invalidData) remaining
  | truncated (hmore : 0 < remaining) :
    OneRead n fin remaining (some (.ok [])) (.error .unexpectedEof) remaining
  | bytes {bytes : List UInt8} (hbytes : bytes ≠ []) (hfits : bytes.length ≤ remaining) :
    OneRead n fin remaining (some (.ok bytes)) (.ok bytes) (remaining - bytes.length)
  | fails (e : IoError) : OneRead n fin remaining (some (.error e)) (.error e) remaining

theorem ExactSizeReader.read_cases (inner : BoundedReader σ IoError UInt8) (n : ℕ) (s : σ)
    (remaining : ℕ) (fin : OutputEnd) :
    let run := ExactSizeReader.read (remembered inner) n ⟨(s, none), remaining, fin⟩
    OneRead n fin remaining run.2.inner.2 (run.1.map Subtype.val) run.2.remaining := by
  dsimp only
  unfold ExactSizeReader.read
  split
  · rename_i hn
    exact .empty hn
  split
  · rename_i hdone
    change remaining = 0 at hdone
    cases fin with
    | Sized => exact .sized hdone rfl
    | Terminated =>
      dsimp only [remembered]
      rcases inner 1 s with ⟨e | bytes, s'⟩
      · exact .fails e
      · dsimp only
        split
        · rename_i hnil
          rw [Except.map, Except.map, hnil]
          exact .ended hdone
        · rename_i hbytes
          exact .exceeds hdone hbytes
  · rename_i hmore
    change ¬remaining = 0 at hmore
    dsimp only [remembered]
    rcases inner (min remaining n) s with ⟨e | bytes, s'⟩
    · exact .fails e
    · dsimp only
      split
      · rename_i hnil
        rw [Except.map, Except.map, hnil]
        exact .truncated (Nat.pos_of_ne_zero hmore)
      · rename_i hbytes
        exact .bytes hbytes (bytes.property.trans (min_le_left _ _))

namespace Call

structure Tracks (size : ℕ) (fin : OutputEnd) (calls : List Call) (remaining : ℕ) : Prop where
  exact : AllExact size fin calls
  given_eq : (∀ c ∈ calls, c.Succeeds) → given calls = decoded calls
  remaining_eq : (∀ c ∈ calls, c.Succeeds) → (given calls).length + remaining = size

theorem tracks_new (size : ℕ) (fin : OutputEnd) : Tracks size fin [] size where
  exact := fun before call after h => by simp at h
  given_eq := fun _ => rfl
  remaining_eq := fun _ => Nat.zero_add size

theorem given_concat (calls : List Call) (call : Call) :
    given (calls ++ [call]) = given calls ++ given [call] := by
  rw [given, List.map_append, delivered_append]
  rfl

theorem decoded_concat (calls : List Call) (call : Call) :
    decoded (calls ++ [call]) = decoded calls ++ decoded [call] := by
  rw [decoded, List.filterMap_append, delivered_append]
  rfl

theorem AllExact.concat {size : ℕ} {fin : OutputEnd} {calls : List Call} {call : Call}
    (h : AllExact size fin calls) (hcall : (∀ c ∈ calls, c.Succeeds) → Exact size fin calls call) :
    AllExact size fin (calls ++ [call]) := by
  intro before c after hsplit hbefore
  rcases List.eq_nil_or_concat after with rfl | ⟨after', last, rfl⟩
  · obtain ⟨rfl, hlast⟩ := List.append_inj' hsplit rfl
    cases hlast
    exact hcall hbefore
  · rw [List.concat_eq_append, ← List.cons_append, ← List.append_assoc] at hsplit
    exact h before c after' (List.append_inj' hsplit rfl).1 hbefore

theorem Tracks.step {size n remaining remaining' : ℕ} {fin : OutputEnd} {calls : List Call}
    {decoder : Option (Except IoError (List UInt8))} {answer : Except IoError (List UInt8)}
    (h : Tracks size fin calls remaining) (hread : OneRead n fin remaining decoder answer remaining') :
    Tracks size fin (calls ++ [⟨n, decoder, answer⟩]) remaining' := by
  -- up to this call none had failed, or nothing is asked
  have hbefore : (∀ c ∈ calls ++ [(⟨n, decoder, answer⟩ : Call)], c.Succeeds) →
      (∀ c ∈ calls, c.Succeeds) ∧ ∃ bytes, answer = .ok bytes := by
    intro hok
    exact ⟨fun c hc => hok c (List.mem_append_left _ hc), hok _ List.mem_concat_self⟩
  refine ⟨h.exact.concat fun hok => ?_, fun hok => ?_, fun hok => ?_⟩
  · have hsize := h.remaining_eq hok
    refine ⟨h.given_eq hok, by omega, fun bytes hanswer hbytes => ?_, fun hanswer hroom => ?_,
      fun hdecoder hshort => ?_, fun bytes hdecoder hbytes hlong => ?_⟩
    · cases hread with
      | bytes hsome hfits =>
        cases hanswer
        exact ⟨rfl, by rw [List.length_append]; omega⟩
      | empty | sized | ended =>
        cases hanswer
        exact absurd rfl hbytes
      | exceeds | truncated | fails => cases hanswer
    · cases hread with
      | empty hn => exact absurd hn hroom.ne'
      | sized hdone hfin => exact ⟨by omega, fun hterminated => by simp [hfin] at hterminated⟩
      | ended hdone => exact ⟨by omega, fun _ => rfl⟩
      | bytes hsome _ =>
        cases hanswer
        exact absurd rfl hsome
      | exceeds | truncated | fails => cases hanswer
    · cases hread with
      | truncated => exact ⟨_, rfl⟩
      | ended hdone => omega
      | exceeds _ hsome | bytes hsome =>
        cases hdecoder
        exact absurd rfl hsome
      | empty | sized | fails => cases hdecoder
    · cases hread with
      | exceeds => exact ⟨_, rfl⟩
      | bytes hsome hfits =>
        have hpos := List.length_pos_iff.mpr hsome
        omega
      | ended | truncated =>
        cases hdecoder
        exact absurd rfl hbytes
      | empty | sized | fails => cases hdecoder
  · obtain ⟨hcalls, hlast⟩ := hbefore hok
    rw [given_concat, decoded_concat, h.given_eq hcalls]
    cases hread with
    | empty | sized | ended | bytes => rfl
    | exceeds | truncated | fails => cases hlast.choose_spec
  · obtain ⟨hcalls, hlast⟩ := hbefore hok
    have hsize := h.remaining_eq hcalls
    rw [given_concat, List.length_append]
    cases hread with
    | empty | sized | ended => exact hsize
    | @bytes out hsome hfits =>
      have hout : given [⟨n, some (.ok out), .ok out⟩] = out := List.append_nil out
      rw [hout]
      omega
    | exceeds | truncated | fails => cases hlast.choose_spec

end Call

/-! Through the chain -/

theorem ExactSizeReader.read_preserves {inner : BoundedReader σ IoError UInt8} {J : σ → Prop}
    (h : ∀ n s, J s → J (inner n s).2) (n : ℕ) {reader : ExactSizeReader σ} (hs : J reader.inner) :
    J (ExactSizeReader.read inner n reader).2.inner := by
  unfold ExactSizeReader.read
  split
  · exact hs
  split
  · split
    · exact hs
    · have hinner := h 1 reader.inner hs
      rcases hread : inner 1 reader.inner with ⟨e | bytes, s⟩ <;> rw [hread] at hinner <;> exact hinner
  · have hinner := h (min reader.remaining n) reader.inner hs
    rcases hread : inner (min reader.remaining n) reader.inner with ⟨e | bytes, s⟩ <;>
      rw [hread] at hinner <;> exact hinner

def Chain.All (P : DecodeStep → OpenCoder δ → Prop) : (steps : List DecodeStep) → Chain δ ρ steps → Prop
  | [], _ => True
  | step :: below, chain => P step chain.1 ∧ Chain.All P below chain.2

def OpenCoder.Held (step : DecodeStep) (coder : OpenCoder δ) : Prop :=
  match step.exactSize with
  | some size => ∃ remaining, coder.remaining = some remaining ∧
      Call.Tracks size step.coder.outputEnd coder.calls remaining
  | none => coder.remaining = none

namespace Codecs

variable (codecs : Codecs δ ρ)

theorem readDecoder_preserves {below : BoundedReader σ IoError UInt8} {I : σ → Prop}
    (h : ∀ n s, I s → I (below n s).2) (n : ℕ) (s : Option δ × σ) (hs : I s.2) :
    I (codecs.readDecoder below n s).2.2 := by
  obtain ⟨_ | decoder, s⟩ := s
  · exact h n s hs
  · exact Asks.run_preserves h (codecs.decode n decoder) hs

theorem readCoder_held {step : DecodeStep} {below : BoundedReader σ IoError UInt8} {I : σ → Prop}
    (h : ∀ n s, I s → I (below n s).2) (n : ℕ) (s : OpenCoder δ × σ)
    (hs : s.1.Held step ∧ I s.2) :
    (codecs.readCoder step below n s).2.1.Held step ∧ I (codecs.readCoder step below n s).2.2 := by
  obtain ⟨⟨decoder, remaining, calls⟩, s⟩ := s
  obtain ⟨hheld, hI⟩ := hs
  have hrecorded : ∀ (n : ℕ) (t : (Option δ × σ) × Option (Except IoError (List UInt8))), I t.1.2 →
      I (remembered (codecs.readDecoder below) n t).2.1.2 :=
    fun n t ht => codecs.readDecoder_preserves h n t.1 ht
  unfold OpenCoder.Held at hheld ⊢
  cases remaining with
  | none =>
    refine ⟨?_, hrecorded n ((decoder, s), none) hI⟩
    split at hheld
    · obtain ⟨_, hsome, _⟩ := hheld
      cases hsome
    · rfl
  | some remaining =>
    refine ⟨?_, ExactSizeReader.read_preserves (J := fun t : (Option δ × σ) × _ => I t.1.2) hrecorded n hI⟩
    split at hheld
    · obtain ⟨_, hsome, htracks⟩ := hheld
      cases hsome
      exact ⟨_, rfl, htracks.step (ExactSizeReader.read_cases _ n (decoder, s) remaining _)⟩
    · cases hheld

theorem read_held : ∀ (steps : List DecodeStep) (n : ℕ) (chain : Chain δ ρ steps),
    chain.All OpenCoder.Held steps → (codecs.read steps n chain).2.All OpenCoder.Held steps
  | [], _, _, _ => trivial
  | _ :: below, n, chain, h => codecs.readCoder_held (read_held below) n chain h

theorem openStep_held (step : DecodeStep) {below : List DecodeStep} {chain : Chain δ ρ below}
    {opened : Chain δ ρ (step :: below)} (h : chain.All OpenCoder.Held below)
    (hopen : codecs.openStep step chain = .ok opened) : opened.All OpenCoder.Held (step :: below) := by
  have hnew : ∀ decoder : Option δ, OpenCoder.Held step ⟨decoder, step.exactSize, []⟩ := by
    intro decoder
    unfold OpenCoder.Held
    cases step.exactSize with
    | none => rfl
    | some size => exact ⟨size, rfl, Call.tracks_new size _⟩
  unfold openStep at hopen
  split at hopen
  · cases hopen
    exact ⟨hnew none, h⟩
  · dsimp only at hopen
    split at hopen
    · cases hopen
    · cases hopen
      exact ⟨hnew _, Asks.run_preserves (fun n chain => codecs.read_held below n chain) (codecs.new step) h⟩

theorem openChain_held : ∀ {steps : List DecodeStep} {source : ρ} {chain : Chain δ ρ steps},
    codecs.openChain steps source = .ok chain → chain.All OpenCoder.Held steps
  | [], _, _, _ => trivial
  | step :: below, source, chain, h => by
    obtain ⟨chain', hbelow, hstep⟩ := Wire.except_bind_eq_ok.mp h
    exact codecs.openStep_held step (openChain_held hbelow) hstep

theorem openChain_calls {step : DecodeStep} {below : List DecodeStep} {source : ρ}
    {chain : Chain δ ρ (step :: below)} (h : codecs.openChain (step :: below) source = .ok chain) :
    chain.1.calls = [] := by
  obtain ⟨chain', -, hstep⟩ := Wire.except_bind_eq_ok.mp h
  unfold openStep at hstep
  split at hstep
  · cases hstep
    rfl
  · dsimp only at hstep
    split at hstep
    · cases hstep
    · cases hstep
      rfl

def asked (coder : OpenCoder δ) : List (ℕ × Except IoError (List UInt8)) :=
  coder.calls.map fun call => (call.room, call.answer)

theorem readCoder_calls (step : DecodeStep) (below : BoundedReader σ IoError UInt8) (n : ℕ)
    (s : OpenCoder δ × σ) : ∃ decoder, (codecs.readCoder step below n s).2.1.calls =
      s.1.calls ++ [⟨n, decoder, (codecs.readCoder step below n s).1.map Subtype.val⟩] := by
  obtain ⟨⟨decoder, _ | remaining, calls⟩, s⟩ := s
  · exact ⟨_, rfl⟩
  · exact ⟨_, rfl⟩

theorem readCoder_asked (step : DecodeStep) (below : BoundedReader σ IoError UInt8) (n : ℕ)
    (s : OpenCoder δ × σ) :
    asked (codecs.readCoder step below n s).2.1 =
      asked s.1 ++ [(n, (codecs.readCoder step below n s).1.map Subtype.val)] := by
  obtain ⟨decoder, hcalls⟩ := codecs.readCoder_calls step below n s
  rw [asked, hcalls]
  exact List.map_append

theorem run_asked (step : DecodeStep) (below : List DecodeStep) (sizes : List ℕ)
    (chain : Chain δ ρ (step :: below)) :
    asked (runAll (codecs.read (step :: below)).plain sizes chain).2.1 =
      asked chain.1 ++ sizes.zip (runAll (codecs.read (step :: below)).plain sizes chain).1 := by
  induction sizes generalizing chain with
  | nil => exact (List.append_nil _).symm
  | cons n sizes ih =>
    rw [runAll, List.zip_cons_cons, ih]
    exact (congrArg (· ++ _) (codecs.readCoder_asked step (codecs.read below) n chain)).trans
      (List.append_assoc _ _ _)

theorem run_held {steps : List DecodeStep} (sizes : List ℕ) {chain : Chain δ ρ steps}
    (h : chain.All OpenCoder.Held steps) :
    (runAll (codecs.read steps).plain sizes chain).2.All OpenCoder.Held steps :=
  runAll_preserves (fun n chain => codecs.read_held steps n chain) sizes h

end Codecs

theorem Chain.All.mono {P Q : DecodeStep → OpenCoder δ → Prop} (h : ∀ step coder, P step coder → Q step coder) :
    ∀ {steps : List DecodeStep} {chain : Chain δ ρ steps}, chain.All P steps → chain.All Q steps
  | [], _, _ => trivial
  | step :: _, chain, hall => ⟨h step chain.1 hall.1, hall.2.mono h⟩

theorem OpenCoder.Held.tracks {step : DecodeStep} {coder : OpenCoder δ} (h : coder.Held step) {size : ℕ}
    (hsize : step.exactSize = some size) :
    ∃ remaining, Call.Tracks size step.coder.outputEnd coder.calls remaining := by
  rw [Held, hsize] at h
  obtain ⟨remaining, -, htracks⟩ := h
  exact ⟨remaining, htracks⟩

/-- Whatever the decoders do and however much the caller asks for, every coder of the chain whose size is
known is held to it, up to the first of its own calls that fails. The calls of the last coder are those
of the caller: when they succeed and then the end is reported, exactly its size was handed over, which
is all that its decoder put out. -/
theorem chain_exact (codecs : Codecs δ ρ) {step : DecodeStep} {below : List DecodeStep} {source : ρ}
    {chain : Chain δ ρ (step :: below)} (hopen : codecs.openChain (step :: below) source = .ok chain)
    (sizes : List ℕ) :
    (runAll (codecs.read (step :: below)).plain sizes chain).2.All
        (fun step coder => ∀ size, step.exactSize = some size →
          Call.AllExact size step.coder.outputEnd coder.calls) (step :: below) ∧
    Codecs.asked (runAll (codecs.read (step :: below)).plain sizes chain).2.1 =
      sizes.zip (runAll (codecs.read (step :: below)).plain sizes chain).1 ∧
    ∀ size n, step.exactSize = some size → 0 < n →
      (∀ outcome ∈ (runAll (codecs.read (step :: below)).plain sizes chain).1,
        ∃ bytes, outcome = .ok bytes) →
      ((codecs.read (step :: below)).plain n
        (runAll (codecs.read (step :: below)).plain sizes chain).2).1 = .ok [] →
      (delivered (runAll (codecs.read (step :: below)).plain sizes chain).1).length = size ∧
      delivered (runAll (codecs.read (step :: below)).plain sizes chain).1 =
        Call.decoded (runAll (codecs.read (step :: below)).plain sizes chain).2.1.calls := by
  have hheld := codecs.openChain_held hopen
  have hasked : ∀ sizes, Codecs.asked (runAll (codecs.read (step :: below)).plain sizes chain).2.1 =
      sizes.zip (runAll (codecs.read (step :: below)).plain sizes chain).1 := by
    intro sizes
    rw [codecs.run_asked, Codecs.asked, codecs.openChain_calls hopen]
    rfl
  refine ⟨(codecs.run_held sizes hheld).mono fun step coder hcoder size hsize => ?_, hasked sizes,
    fun size n hsize hn hok hend => ?_⟩
  · obtain ⟨_, htracks⟩ := hcoder.tracks hsize
    exact htracks.exact
  · have hlast := (codecs.run_held sizes hheld)
    have hanswers := congrArg (List.map Prod.snd) (hasked sizes)
    rw [Codecs.asked, List.map_map, List.map_snd_zip (runAll_length _ _ _).le] at hanswers
    have hgiven : Call.given (runAll (codecs.read (step :: below)).plain sizes chain).2.1.calls =
        delivered (runAll (codecs.read (step :: below)).plain sizes chain).1 := congrArg delivered hanswers
    have hsucceeds : ∀ call ∈ (runAll (codecs.read (step :: below)).plain sizes chain).2.1.calls,
        call.Succeeds := by
      intro call hcall
      refine hok call.answer ?_
      rw [← hanswers]
      exact List.mem_map_of_mem hcall
    obtain ⟨_, htracks⟩ := (codecs.read_held (step :: below) n _ hlast).1.tracks hsize
    obtain ⟨decoder, hcalls⟩ := codecs.readCoder_calls step (codecs.read below) n
      (runAll (codecs.read (step :: below)).plain sizes chain).2
    have hexact := htracks.exact _ _ [] hcalls hsucceeds
    rw [← hgiven]
    exact ⟨(hexact.ended hend hn).1, hexact.given_eq⟩

def packedBytes : BoundedReader (List UInt8) IoError UInt8 := fun n bytes =>
  (.ok ⟨bytes.take n, List.length_take_le n bytes⟩, bytes.drop n)

def passThrough : Codecs Unit (List UInt8) where
  packed := packedBytes
  new := fun _ => .done (.ok ())
  decode := fun n _ => .ask n fun answer => .done (answer, ())

def deltaSteps : List DecodeStep := [⟨.Delta 1, .Known 2, .Known 2⟩, ⟨.Copy, .Known 2, .Known 2⟩]

/-- A copied stream that is longer than declared, and one of the declared size. -/
theorem chain_exact_excess :
    (∃ chain, passThrough.openChain deltaSteps [1, 2, 3] = .ok chain ∧
      (runAll (passThrough.read deltaSteps).plain [1, 5, 1] chain).2.All
        (fun step coder => ∀ size, step.exactSize = some size →
          Call.AllExact size step.coder.outputEnd coder.calls) deltaSteps ∧
      Codecs.asked (runAll (passThrough.read deltaSteps).plain [1, 5, 1] chain).2.1 =
        [1, 5, 1].zip (runAll (passThrough.read deltaSteps).plain [1, 5, 1] chain).1) ∧
    ∃ chain, passThrough.openChain deltaSteps [1, 2] = .ok chain ∧
      (delivered (runAll (passThrough.read deltaSteps).plain [1, 5] chain).1).length = 2 ∧
      delivered (runAll (passThrough.read deltaSteps).plain [1, 5] chain).1 =
        Call.decoded (runAll (passThrough.read deltaSteps).plain [1, 5] chain).2.1.calls := by
  refine ⟨⟨_, rfl, ?_⟩, _, rfl, ?_⟩
  · obtain ⟨hall, hasked, -⟩ := @chain_exact _ _ passThrough ⟨.Delta 1, .Known 2, .Known 2⟩
      [⟨.Copy, .Known 2, .Known 2⟩] [1, 2, 3] _ rfl [1, 5, 1]
    exact ⟨hall, hasked⟩
  · obtain ⟨-, -, hend⟩ := @chain_exact _ _ passThrough ⟨.Delta 1, .Known 2, .Known 2⟩
      [⟨.Copy, .Known 2, .Known 2⟩] [1, 2] _ rfl [1, 5]
    refine hend 2 1 rfl Nat.one_pos (fun outcome hmem => ?_) rfl
    rcases List.mem_pair.mp hmem with rfl | rfl
    · exact ⟨_, rfl⟩
    · exact ⟨_, rfl⟩

end R7z
