import R7z.Decode.Steps

/-! What an operation charges for. Planning and opening a decoder leave all counters but that of the
key, so that decoded output is counted by the reads of a stream, or once in advance. -/

namespace R7z

open Effect Effect.Machine

section
variable {ω δ : Type}

structure Steady (op op' : Operation ω) : Prop where
  limits : op'.budget.limits = op.budget.limits
  metadata : op'.budget.metadata = op.budget.metadata
  decoded : op'.budget.decoded = op.budget.decoded
  kdf : op.budget.kdf.Within → op'.budget.kdf.Within
  kdfLimit : op'.budget.kdf.limit = op.budget.kdf.limit
  history : op'.history = { op.history with decoders := op'.history.decoders }

instance : Std.Refl (Steady (ω := ω)) := ⟨fun _ => ⟨rfl, rfl, rfl, id, rfl, rfl⟩⟩

instance : IsTrans (Operation ω) Steady where
  trans _ _ _ h h' :=
    { limits := h'.limits.trans h.limits
      metadata := h'.metadata.trans h.metadata
      decoded := h'.decoded.trans h.decoded
      kdf := h'.kdf ∘ h.kdf
      kdfLimit := h'.kdfLimit.trans h.kdfLimit
      history := by rw [h'.history, h.history] }

structure Quiet (op op' : Operation ω) : Prop extends Steady op op' where
  decoders : op'.history.decoders = op.history.decoders

instance : Std.Refl (Quiet (ω := ω)) := ⟨fun op => ⟨Std.Refl.refl op, rfl⟩⟩

instance : IsTrans (Operation ω) Quiet where
  trans _ _ _ h h' := ⟨IsTrans.trans _ _ _ h.toSteady h'.toSteady, h'.decoders.trans h.decoders⟩

theorem steady_of_quiet {α : Type} {m : OperationM ω α} (h : Moves Quiet m) : Moves Steady m :=
  fun op => (h op).toSteady

theorem Polled.quiet {op op' : Operation ω} (h : Polled op op') : Quiet op op' where
  limits := by rw [h.budget]
  metadata := by rw [h.budget]
  decoded := by rw [h.budget]
  kdf := fun hkdf => by rw [h.budget]; exact hkdf
  kdfLimit := by rw [h.budget]
  history := by rw [h.history]
  decoders := by rw [h.history]

theorem Polled.steady {op op' : Operation ω} (h : Polled op op') : Steady op op' := h.quiet.toSteady

theorem external_quiet {α : Type} (call : ω → Except R7zError α × ω) :
    Moves Quiet (Operation.external call) :=
  fun _ => ⟨⟨rfl, rfl, rfl, id, rfl, rfl⟩, rfl⟩

theorem external_steady {α : Type} (call : ω → Except R7zError α × ω) :
    Moves Steady (Operation.external call) := steady_of_quiet (external_quiet call)

theorem recordDecoders_steady (f : History → List DecoderRun) :
    Moves Steady (Operation.recordHistory fun history => { history with decoders := f history } :
      OperationM ω Unit) :=
  fun _ => ⟨rfl, rfl, rfl, id, rfl, rfl⟩

theorem onBudget_cases (f : OperationBudget → Except R7zError OperationBudget) (op : Operation ω) :
    (∃ budget, f op.budget = .ok budget ∧ Operation.onBudget f op = (.ok (), { op with budget })) ∨
      ∃ e, f op.budget = .error e ∧ Operation.onBudget f op = (.error e, op) := by
  unfold Operation.onBudget
  cases hf : f op.budget with
  | error e => exact .inr ⟨e, rfl, rfl⟩
  | ok budget => exact .inl ⟨budget, rfl, rfl⟩

theorem admit_quiet (bytes : ℕ) :
    Moves Quiet (Operation.admitDecoderWorkingSet bytes : OperationM ω Unit) := by
  intro op
  rcases onBudget_cases (fun b => b.admitDecoderWorkingSet bytes) op with
    ⟨budget, hf, hrun⟩ | ⟨e, -, hrun⟩
  · unfold Operation.admitDecoderWorkingSet
    rw [hrun]
    obtain ⟨limit, hlimit⟩ : ∃ limit, op.budget.admitDecoderWorkingSet bytes =
        if bytes > limit then
          .error (.resourceLimitExceeded "decoder working set" (UInt64.ofNat limit))
        else .ok { op.budget with
          peakDecoderWorkingSet := max op.budget.peakDecoderWorkingSet bytes } := ⟨_, rfl⟩
    rw [hlimit] at hf
    split at hf
    · cases hf
    · cases hf
      exact ⟨⟨rfl, rfl, rfl, id, rfl, rfl⟩, rfl⟩
  · unfold Operation.admitDecoderWorkingSet
    rw [hrun]
    exact Std.Refl.refl op

theorem chargeKdf_quiet (cycles : UInt64) :
    Moves Quiet (Operation.chargeKdfCycles cycles : OperationM ω Unit) := by
  intro op
  rcases onBudget_cases (fun b => b.chargeKdfCycles cycles) op with
    ⟨budget, hf, hrun⟩ | ⟨e, -, hrun⟩
  · unfold Operation.chargeKdfCycles
    rw [hrun]
    obtain ⟨kdf, hbudget, hlimit, hkdf⟩ := OperationBudget.chargeKdfCycles_spec hf
    rw [hbudget]
    exact ⟨⟨rfl, rfl, rfl, fun _ => hkdf, hlimit, rfl⟩, rfl⟩
  · unfold Operation.chargeKdfCycles
    rw [hrun]
    exact Std.Refl.refl op

variable (env : Environment ω δ)

theorem chargeKdf_steady (cycles : UInt64) :
    Moves Steady (Operation.chargeKdfCycles cycles : OperationM ω Unit) :=
  steady_of_quiet (chargeKdf_quiet cycles)

theorem check_quiet : Moves Quiet (check env) := by
  intro op
  obtain ⟨op', hpolled, -, ⟨hrun, -⟩ | ⟨hrun, -⟩⟩ := check_cases env op
  · rw [hrun]
    exact hpolled.quiet
  · rw [hrun]
    exact hpolled.quiet

theorem check_steady : Moves Steady (check env) := steady_of_quiet (check_quiet env)

theorem advance_quiet (bytes : ℕ) : Moves Quiet (advance env bytes) := by
  intro op
  obtain ⟨op', hpolled, -, hrun | ⟨hrun, -⟩⟩ := advance_cases env bytes op
  · rw [hrun]
    exact hpolled.quiet
  · rw [hrun]
    exact hpolled.quiet

theorem advance_steady (bytes : ℕ) : Moves Steady (advance env bytes) :=
  steady_of_quiet (advance_quiet env bytes)

/-! Planning and opening -/

theorem compileWithBudget_quiet (folder : Folder) (graph : FolderGraph) (unpackSize : UInt64)
    (sizes packedSizes : List UInt64) :
    Moves Quiet (DecoderPlan.compileWithBudget env folder graph unpackSize sizes packedSizes) :=
  (Moves.ofExcept _).bind fun _ => (Moves.ofExcept _).bind fun _ => (admit_quiet _).bind fun _ =>
    Moves.pure _

theorem openPacked_quiet (packs : PackedSource) :
    ∀ streams, Moves Quiet (openPacked env packs streams)
  | [] => Moves.pure []
  | stream :: streams => by
    have hreader : Moves Quiet (packs.reader env stream) :=
      Moves.ite (external_quiet _) (Moves.fail _)
    exact hreader.bind fun _ => (openPacked_quiet packs streams).bind fun _ => Moves.pure _

theorem bind_quiet (folder : FolderLayout) (packs : PackedSource) :
    Moves Quiet (folder.bind env packs) :=
  (compileWithBudget_quiet env _ _ _ _ _).bind fun _ => (openPacked_quiet env packs _).bind fun _ =>
    (Moves.ofExcept _).bind fun _ => Moves.pure _

theorem bind_steady (folder : FolderLayout) (packs : PackedSource) :
    Moves Steady (folder.bind env packs) := steady_of_quiet (bind_quiet env folder packs)

theorem admitCoder_quiet (password : Option String) (coder : CoderPlan) :
    Moves Quiet ( coder.admit password : OperationM ω Unit) := by
  cases coder with
  | Aes numCyclesPower =>
    cases password with
    | none => exact Moves.fail _
    | some _ => exact (Moves.ofExcept _).bind fun _ => chargeKdf_quiet _
  | _ => exact Moves.pure ()

theorem openStep_quiet (step : DecodeStep) (password : Option String) (input : CheckedReader δ) :
    Moves Quiet (step.open env password input) := by
  refine (admitCoder_quiet password step.coder).bind fun _ => (external_quiet _).bind fun _ => ?_
  cases step.output with
  | Known size => exact Moves.pure _
  | Unknown => exact Moves.pure _

theorem openSteps_quiet (password : Option String) : ∀ (steps : List DecodeStep) (reader : CheckedReader δ),
    Moves Quiet (openSteps env password steps reader)
  | [], reader => Moves.pure reader
  | step :: steps, reader =>
    (openStep_quiet env step password reader).bind fun _ => openSteps_quiet password steps _

theorem readBcj2_quiet (n : ℕ) (reader : δ) : Moves Quiet (readBcj2 env n reader) := external_quiet _

theorem fillBcj2_quiet (outputSize : ℕ) : ∀ (turns : ℕ) (reader : δ) (output : List UInt8),
    Moves Quiet (fillBcj2 env outputSize turns reader output)
  | 0, _, _ => Moves.pure _
  | turns + 1, _, _ =>
    Moves.ite
      ((check_quiet env).bind fun _ => Moves.get.bind fun _ => (readBcj2_quiet env _ _).bind fun _ =>
        (advance_quiet env _).bind fun _ =>
          Moves.ite (Moves.pure _) (fillBcj2_quiet outputSize turns _ _))
      (Moves.pure _)

theorem startDecoder_quiet (decoder : ReadyDecoder δ) (password : Option String) :
    Moves Quiet (decoder.start env password) := by
  unfold ReadyDecoder.start
  split
  · exact (openSteps_quiet env password _ _).bind fun _ => Moves.pure _
  · exact (check_quiet env).bind fun _ => (openSteps_quiet env password _ _).bind fun _ =>
      (openSteps_quiet env password _ _).bind fun _ => (openSteps_quiet env password _ _).bind fun _ =>
      (openSteps_quiet env password _ _).bind fun _ => (external_quiet _).bind fun _ =>
      (fillBcj2_quiet env _ _ _ _).bind fun _ => Moves.ite (Moves.fail _)
        ((external_quiet _).bind fun _ => (check_quiet env).bind fun _ => Moves.pure _)

theorem startDecoder_steady (decoder : ReadyDecoder δ) (password : Option String) :
    Moves Steady (decoder.start env password) := steady_of_quiet (startDecoder_quiet env decoder password)

theorem startReady_steady (ready : ReadyFolder δ) (password : Option String) :
    Moves Steady (ready.startDecoder env password) :=
  (startDecoder_steady env _ _).bind fun _ => (recordDecoders_steady _).bind fun _ => Moves.pure _

theorem readFolder_steady (n : ℕ) (reader : FolderReader δ) (op : Operation ω) :
    Steady op (readFolder env n reader op).2.2 := by
  unfold readFolder
  split
  · refine ⟨rfl, rfl, rfl, id, rfl, ?_⟩
    dsimp only
    unfold noteRead
    split
    · rfl
    · rfl
  · exact ⟨rfl, rfl, rfl, id, rfl, rfl⟩

end

end R7z
