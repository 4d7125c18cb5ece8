import R7z.Decode.Balance

/-! The decoder of a folder and the reader of a substream go in step: what the decoder gave is counted,
went into the checksums and was handed on, up to the end of the substream. -/

namespace R7z

open Effect Effect.Machine

def Operation.Stopped {ω : Type} (op : Operation ω) : Prop :=
  op.budget.monitor.hasControl = true ∧ op.cancelled = true

def DecoderRun.output (run : DecoderRun) : List UInt8 := run.reads.flatten

def CallbackRun.bytes (run : CallbackRun) : List UInt8 := run.handed.flatMap Prod.snd

section
variable {ω δ : Type}

theorem Polled.stopped {op op' : Operation ω} (h : Polled op op') (hstopped : op.Stopped) : op'.Stopped :=
  ⟨h.control.trans hstopped.1, h.cancelled hstopped.2⟩

theorem check_stops (env : Environment ω δ) (op : Operation ω) : ∃ op', Polled op op' ∧
    ((check env op = (.ok (), op') ∧ ¬op.Stopped) ∨ check env op = (.error .cancelled, op')) := by
  obtain ⟨op', hpolled, -, ⟨hrun, hnot⟩ | ⟨hrun, -⟩⟩ := check_cases env op
  · refine ⟨op', hpolled, .inl ⟨hrun, fun hstopped => ?_⟩⟩
    have hcontrolled : op.Controlled := fun hnone => by
      rw [hstopped.1] at hnone
      cases hnone
    have hcancelled := hpolled.cancelled hstopped.2
    rw [hnot hcontrolled] at hcancelled
    cases hcancelled
  · exact ⟨op', hpolled, .inr hrun⟩

theorem advance_stops (env : Environment ω δ) (bytes : ℕ) (op : Operation ω) : ∃ op', Polled op op' ∧
    (advance env bytes op = (.ok (), op') ∨
      advance env bytes op = (.error .cancelled, op') ∧ op'.Stopped) := by
  obtain ⟨op', hpolled, -, hrun | ⟨hrun, hcancelled⟩⟩ := advance_cases env bytes op
  · exact ⟨op', hpolled, .inl hrun⟩
  · refine ⟨op', hpolled, .inr ⟨hrun, ?_, hcancelled⟩⟩
    rw [hpolled.control]
    by_contra hnone
    have hidle : advance env bytes op = (.ok (), op) :=
      congrFun (if_neg hnone : (if op.budget.monitor.hasControl = true then _ else pure () : OperationM ω Unit) = _) op
    rw [hidle] at hrun
    cases hrun

end

theorem DigestState.update_nil (state : DigestState) : state.update [] = state := by
  cases state with
  | Absent => rfl
  | Checking expected hasher =>
    exact congrArg (Checking expected) (List.append_nil hasher)

theorem DigestState.update_append (state : DigestState) (bytes more : List UInt8) :
    (state.update bytes).update more = state.update (bytes ++ more) := by
  cases state with
  | Absent => rfl
  | Checking expected hasher =>
    exact congrArg (Checking expected) (List.append_assoc hasher bytes more)

theorem DigestState.finish_new {crc32 : List UInt8 → UInt32} {digest : Option UInt32} {bytes : List UInt8}
    (h : ((DigestState.new digest).update bytes).finish crc32 = .ok ()) :
    ∀ crc, digest = some crc → crc32 bytes = crc := by
  intro crc hcrc
  subst hcrc
  by_contra hne
  have hfail : ((DigestState.new (some crc)).update bytes).finish crc32 = .error .crc :=
    if_neg (Ne.symm hne)
  rw [hfail] at h
  cases h

/-- The last decoder that was started is that of the folder, and it gave `output`. -/
structure History.Gave (folder : FolderLayout) (runs : List DecoderRun) (callbacks : List CallbackRun)
    (output : List UInt8) (history : History) : Prop where
  decoders : ∃ reads, history.decoders = { folder, reads } :: runs ∧ reads.flatten = output
  callbacks : history.callbacks = callbacks

section
variable {ω δ : Type} {folder : FolderLayout} {runs : List DecoderRun} {callbacks : List CallbackRun}
  {stream : Substream} {output : List UInt8}

theorem History.Gave.noteRead {history : History} (h : history.Gave folder runs callbacks output)
    (bytes : List UInt8) : (noteRead bytes history).Gave folder runs callbacks (output ++ bytes) := by
  obtain ⟨⟨reads, hreads, rfl⟩, hcallbacks⟩ := h
  unfold R7z.noteRead
  rw [hreads]
  refine ⟨⟨reads ++ [bytes], rfl, ?_⟩, hcallbacks⟩
  rw [List.flatten_append, List.flatten_singleton]

/-- A substream is read up to the end of `output`, which was counted and went into the checksums. -/
structure SubstreamReader.Counted (folder : FolderLayout) (stream : Substream) (output : List UInt8)
    (content : SubstreamReader δ) : Prop where
  decoded : content.decodedLen.toNat = output.length
  remaining : output.length + content.remaining = stream.stop
  start : stream.start ≤ output.length
  folderDigest : content.folderDigest = (DigestState.new folder.crc).update output
  streamDigest : content.streamDigest = (DigestState.new stream.digest).update (output.drop stream.start)

structure Reading.InStep (folder : FolderLayout) (runs : List DecoderRun) (callbacks : List CallbackRun)
    (stream : Substream) (output : List UInt8) (s : Reading ω δ) : Prop where
  gave : s.op.history.Gave folder runs callbacks output
  counted : s.content.Counted folder stream output

namespace Reading.InStep

variable {s : Reading ω δ}

theorem polled (h : s.InStep folder runs callbacks stream output) {op : Operation ω}
    (hpolled : Polled s.op op) :
    ({ s with op } : Reading ω δ).InStep folder runs callbacks stream output where
  gave := by
    show op.history.Gave folder runs callbacks output
    rw [hpolled.history]
    exact h.gave
  counted := h.counted

theorem unique (h : s.InStep folder runs callbacks stream output) {output' : List UInt8}
    (h' : s.InStep folder runs callbacks stream output') : output = output' := by
  obtain ⟨reads, hreads, rfl⟩ := h.gave.decoders
  obtain ⟨reads', hreads', rfl⟩ := h'.gave.decoders
  rw [hreads] at hreads'
  cases hreads'
  rfl

end Reading.InStep

/-- A read of at most `n` bytes that went well gave what the decoder gave, and nothing only at the end of
the substream; the operation was not cancelled. -/
structure Reading.Served (folder : FolderLayout) (runs : List DecoderRun) (callbacks : List CallbackRun)
    (stream : Substream) (output : List UInt8) (n : ℕ) (s : Reading ω δ) (bytes : List UInt8)
    (s' : Reading ω δ) : Prop where
  inStep : s'.InStep folder runs callbacks stream (output ++ bytes)
  length : bytes.length ≤ n
  ended : bytes = [] → 0 < n → s'.content.remaining = 0
  running : ¬s.op.Stopped

def Reading.Missed (folder : FolderLayout) (runs : List DecoderRun) (callbacks : List CallbackRun)
    (stream : Substream) (output : List UInt8) (s s' : Reading ω δ) : Prop :=
  (s'.InStep folder runs callbacks stream output ∧ (s.op.Stopped → s'.op.Stopped)) ∨
  ∃ bytes, s'.InStep folder runs callbacks stream (output ++ bytes) ∧ s'.op.Stopped

def SubstreamReader.taking (bytes : List UInt8) (content : SubstreamReader δ) : SubstreamReader δ :=
  { content with
    remaining := content.remaining - bytes.length
    decodedLen := content.decodedLen + UInt64.ofNat bytes.length
    folderDigest := content.folderDigest.update bytes
    streamDigest := content.streamDigest.update bytes }

theorem SubstreamReader.Counted.decoded_add {content : SubstreamReader δ} {bytes : List UInt8}
    (h : content.Counted folder stream output) (hstop : stream.stop < 2 ^ 64)
    (hbytes : bytes.length ≤ content.remaining) :
    content.decodedLen.toNat + bytes.length < 2 ^ 64 := by
  have hdecoded := h.decoded
  have hremaining := h.remaining
  omega

theorem SubstreamReader.Counted.taking {content : SubstreamReader δ} {bytes : List UInt8}
    (h : content.Counted folder stream output) (hstop : stream.stop < 2 ^ 64)
    (hbytes : bytes.length ≤ content.remaining) :
    (content.taking bytes).Counted folder stream (output ++ bytes) := by
  have hlt := h.decoded_add hstop hbytes
  have hremaining := h.remaining
  have hlength : (UInt64.ofNat bytes.length).toNat = bytes.length :=
    UInt64.toNat_ofNat_of_lt' (show bytes.length < 2 ^ 64 by omega)
  refine ⟨?_, ?_, ?_, ?_, ?_⟩
  · show (content.decodedLen + UInt64.ofNat bytes.length).toNat = _
    rw [OperationBudget.toNat_add_of_lt (by rw [hlength]; exact hlt), hlength, h.decoded,
      List.length_append]
  · show (output ++ bytes).length + (content.remaining - bytes.length) = _
    rw [List.length_append]
    omega
  · rw [List.length_append]
    exact h.start.trans (Nat.le_add_right _ _)
  · show content.folderDigest.update bytes = _
    rw [h.folderDigest, DigestState.update_append]
  · show content.streamDigest.update bytes = _
    rw [h.streamDigest, DigestState.update_append, List.drop_append_of_le_length h.start]

theorem chargeDecoded_ok {bytes next : UInt64} {op : Operation ω}
    (h : op.budget.nextDecoded bytes = .ok next) :
    Operation.chargeDecoded bytes op = (.ok (),
      { op with budget := { op.budget with decoded := next }
                history := Operation.noteCharge bytes op.history }) := by
  have hcharge : op.budget.chargeDecoded bytes = .ok { op.budget with decoded := next } := by
    unfold OperationBudget.chargeDecoded
    rw [h]
    rfl
  unfold Operation.chargeDecoded
  have hrun : Operation.onBudget (fun b => b.chargeDecoded bytes) op =
      (.ok (), { op with budget := { op.budget with decoded := next } }) := by
    unfold Operation.onBudget
    dsimp only
    rw [hcharge]
  exact Machine.bind_of_ok hrun

variable (env : Environment ω δ) {s : Reading ω δ} {bytes : List UInt8}

theorem count_inStep (hgave : s.op.history.Gave folder runs callbacks (output ++ bytes))
    (hlt : s.content.decodedLen.toNat + bytes.length < 2 ^ 64)
    (hcounted : ({ s.content with
      decodedLen := s.content.decodedLen + UInt64.ofNat bytes.length
      folderDigest := s.content.folderDigest.update bytes
      streamDigest := s.content.streamDigest.update bytes } : SubstreamReader δ).Counted folder stream
        (output ++ bytes)) :
    Outcome (fun _ s' => s'.InStep folder runs callbacks stream (output ++ bytes))
      (fun _ s' => s'.InStep folder runs callbacks stream (output ++ bytes) ∧ s'.op.Stopped)
      (SubstreamReader.count env bytes s) := by
  unfold SubstreamReader.count
  refine Meets.get_bind (P := fun t => t = s) (fun t ht => ?_) s rfl
  subst ht
  refine Outcome.ite (fun _ => ?_) fun hge => absurd hlt hge
  have hin : Reading.InStep folder runs callbacks stream (output ++ bytes)
      { t with content := { t.content with
          decodedLen := t.content.decodedLen + UInt64.ofNat bytes.length
          folderDigest := t.content.folderDigest.update bytes
          streamDigest := t.content.streamDigest.update bytes } } := ⟨hgave, hcounted⟩
  refine Meets.bind (P := fun u => u = t) (Q := fun _ => Reading.InStep folder runs callbacks stream (output ++ bytes))
    (fun u hu => ?_) (fun _ u hu => ?_) t rfl
  · subst hu
    exact hin
  · refine Outcome.ite (fun _ => ?_) fun _ => hu
    unfold SubstreamReader.onOperation
    obtain ⟨op', hpolled, hrun | ⟨hrun, hstopped⟩⟩ := advance_stops env bytes.length u.op
    · rw [hrun]
      exact hu.polled hpolled
    · rw [hrun]
      exact ⟨hu.polled hpolled, hstopped⟩

theorem account_inStep (hgave : s.op.history.Gave folder runs callbacks (output ++ bytes))
    (hcounted : s.content.Counted folder stream output)
    (hstop : stream.stop < 2 ^ 64) (hbytes : bytes.length ≤ s.content.remaining)
    (hcharge : s.content.chargeBudget = true →
      ∃ next, s.op.budget.nextDecoded (UInt64.ofNat bytes.length) = .ok next) :
    Outcome (fun _ s' => s'.InStep folder runs callbacks stream (output ++ bytes))
      (fun _ s' => s'.InStep folder runs callbacks stream (output ++ bytes) ∧ s'.op.Stopped)
      (SubstreamReader.account env bytes s) := by
  have hlt := hcounted.decoded_add hstop hbytes
  have htaking := hcounted.taking hstop hbytes
  unfold SubstreamReader.account
  have hupdate : SubstreamReader.update
      (fun content => { content with remaining := content.remaining - bytes.length }) s =
      (.ok (), { s with content := { s.content with remaining := s.content.remaining - bytes.length } }) := rfl
  rw [Machine.bind_of_ok hupdate]
  refine Meets.get_bind (P := fun t => t = { s with content :=
    { s.content with remaining := s.content.remaining - bytes.length } }) (fun t ht => ?_) _ rfl
  subst ht
  refine Outcome.ite (fun hbudget => ?_) fun _ => count_inStep env hgave hlt htaking
  obtain ⟨next, hnext⟩ := hcharge hbudget
  have hrun : SubstreamReader.onOperation (fun _ => IoError.invalidData)
      (Operation.chargeDecoded (UInt64.ofNat bytes.length))
      ({ s with content := { s.content with remaining := s.content.remaining - bytes.length } } : Reading ω δ) =
      (.ok (), { content := { s.content with remaining := s.content.remaining - bytes.length }
                 op := { s.op with budget := { s.op.budget with decoded := next }
                                   history := Operation.noteCharge (UInt64.ofNat bytes.length) s.op.history } }) := by
    unfold SubstreamReader.onOperation
    rw [chargeDecoded_ok hnext]
  rw [Machine.bind_of_ok hrun]
  exact count_inStep env ⟨hgave.decoders, hgave.callbacks⟩ hlt htaking

theorem readWithin_inStep {limit : ℕ} (h : s.InStep folder runs callbacks stream output)
    (hwithin : s.op.budget.Within) (hstop : stream.stop < 2 ^ 64) (hlimit : limit ≤ s.content.remaining)
    (hallowed : s.content.chargeBudget = true →
      ∀ remaining, s.op.budget.decodedRemaining = some remaining → limit ≤ remaining.toNat) :
    Outcome (fun bytes s' => s'.InStep folder runs callbacks stream (output ++ bytes) ∧
        bytes.length ≤ limit ∧ bytes ≠ [])
      (fun _ => Reading.Missed folder runs callbacks stream output s)
      (SubstreamReader.readWithin env limit s) := by
  have hsize : s.op.budget.monitor.bufferSize limit ≤ limit := by
    unfold OperationMonitor.bufferSize
    split
    · exact Nat.min_le_left _ _
    · exact le_rfl
  unfold SubstreamReader.readWithin
  refine Meets.get_bind (P := fun t => t = s) (fun t ht => ?_) s rfl
  subst ht
  generalize t.op.budget.monitor.bufferSize limit = k at hsize
  rw [Machine.bind_apply]
  unfold SubstreamReader.readDecoder readFolder
  rcases hread : t.content.reader.read env k t.op.outside with ⟨e | bytes, reader, outside⟩
  · exact .inl ⟨⟨⟨h.gave.decoders, h.gave.callbacks⟩, ⟨h.counted.decoded, h.counted.remaining,
      h.counted.start, h.counted.folderDigest, h.counted.streamDigest⟩⟩, id⟩
  · dsimp only
    have hlength : bytes.length ≤ limit :=
      (t.content.reader.read_length env k _ t.op.outside _ hread).trans hsize
    have hgave := h.gave.noteRead bytes
    have hcounted : ({ t.content with reader } : SubstreamReader δ).Counted folder stream output :=
      ⟨h.counted.decoded, h.counted.remaining, h.counted.start, h.counted.folderDigest,
        h.counted.streamDigest⟩
    refine Outcome.ite (fun hempty => ?_) fun hsome => ?_
    · rw [List.isEmpty_iff.mp hempty, List.append_nil] at hgave
      rw [List.isEmpty_iff.mp hempty]
      exact .inl ⟨⟨hgave, hcounted⟩, id⟩
    · have hne : bytes ≠ [] := fun hempty => hsome (List.isEmpty_iff.mpr hempty)
      -- a read that was let through can be charged
      have hcharge : t.content.chargeBudget = true →
          ∃ next, t.op.budget.nextDecoded (UInt64.ofNat bytes.length) = .ok next := by
        intro hbudget
        refine OperationBudget.nextDecoded_of_fits hwithin fun remaining hremaining => ?_
        have hfits := hallowed hbudget remaining hremaining
        have hlt := remaining.toNat_lt
        rw [UInt64.toNat_ofNat_of_lt' (show bytes.length < 2 ^ 64 by omega)]
        omega
      have haccount := @account_inStep ω δ folder runs callbacks stream output env
        { content := { t.content with reader }
          op := { t.op with outside := outside, history := noteRead bytes t.op.history } }
        bytes hgave hcounted hstop (hlength.trans hlimit) hcharge
      rw [Machine.bind_apply]
      rcases hrun : SubstreamReader.account env bytes _ with ⟨e | u, s'⟩
      · rw [hrun] at haccount
        exact .inr ⟨bytes, haccount⟩
      · rw [hrun] at haccount
        exact ⟨haccount, hlength, hne⟩

/-- A read gives what the decoder gives, and nothing only at the end of the substream. A read that fails
has left the decoder where it was, unless it was cancelled. -/
theorem read_inStep (n : ℕ) (h : s.InStep folder runs callbacks stream output)
    (hwithin : s.op.budget.Within) (hstop : stream.stop < 2 ^ 64) :
    Outcome (Reading.Served folder runs callbacks stream output n s)
      (fun _ => Reading.Missed folder runs callbacks stream output s)
      (SubstreamReader.read env n s) := by
  unfold SubstreamReader.read
  obtain ⟨op, hpolled, ⟨hrun, hrunning⟩ | hrun⟩ := check_stops env s.op
  · have hcheck : SubstreamReader.onOperation readIoError (check env) s = (.ok (), { s with op }) := by
      unfold SubstreamReader.onOperation
      rw [hrun]
    rw [Machine.bind_of_ok hcheck]
    have hop : ({ s with op } : Reading ω δ).InStep folder runs callbacks stream output :=
      h.polled hpolled
    have hopWithin : op.budget.Within := hpolled.within hwithin
    generalize hs : ({ s with op } : Reading ω δ) = t at hop
    have htWithin : t.op.budget.Within := by rw [← hs]; exact hopWithin
    have hfail : ∀ {s' : Reading ω δ}, s'.InStep folder runs callbacks stream output →
        Reading.Missed folder runs callbacks stream output s s' :=
      fun hin => .inl ⟨hin, fun hstopped => absurd hstopped hrunning⟩
    refine Meets.get_bind (P := fun u => u = t) (fun u hu => ?_) t rfl
    subst hu
    refine Outcome.ite (fun hzero => ?_) fun hpos => ?_
    · refine ⟨by rw [List.append_nil]; exact hop, Nat.zero_le n, fun _ hn => ?_, hrunning⟩
      rcases Nat.min_eq_zero_iff.mp hzero with hremaining | hn'
      · exact hremaining
      · omega
    · have hremaining : SubstreamReader.onOperation readIoError Operation.decodedRemaining u =
          (.ok u.op.budget.decodedRemaining, u) := by
        unfold SubstreamReader.onOperation
        rw [decodedRemaining_run htWithin]
      rw [Machine.bind_of_ok hremaining]
      -- within the limit of the budget a read is as without one
      have hread : ∀ limit, limit ≤ min u.content.remaining n →
          (u.content.chargeBudget = true →
            ∀ remaining, u.op.budget.decodedRemaining = some remaining → limit ≤ remaining.toNat) →
          Outcome (Reading.Served folder runs callbacks stream output n s)
            (fun _ => Reading.Missed folder runs callbacks stream output s)
            (SubstreamReader.readWithin env limit u) := by
        intro limit hlimit hallowed
        refine Outcome.mono (readWithin_inStep env hop htWithin hstop
          (hlimit.trans (Nat.min_le_left _ _)) hallowed) ?_ ?_
        · rintro bytes s' ⟨hin, hlength, hne⟩
          exact ⟨hin, hlength.trans (hlimit.trans (Nat.min_le_right _ _)),
            fun hempty => absurd hempty hne, hrunning⟩
        · rintro e s' (⟨hin, -⟩ | hstopped)
          · exact hfail hin
          · exact .inr hstopped
      refine Outcome.ite (fun _ => ?_) fun _ => ?_
      · exact hfail ⟨⟨hop.gave.decoders, hop.gave.callbacks⟩, ⟨hop.counted.decoded,
          hop.counted.remaining, hop.counted.start, hop.counted.folderDigest, hop.counted.streamDigest⟩⟩
      · cases hallowed : u.content.allowed u.op.budget.decodedRemaining with
        | none =>
          refine hread _ le_rfl fun hbudget remaining hsome => ?_
          unfold SubstreamReader.allowed at hallowed
          rw [if_pos hbudget, hsome] at hallowed
          cases hallowed
        | some allowed =>
          refine hread _ (Nat.min_le_left _ _) fun hbudget remaining hsome => ?_
          unfold SubstreamReader.allowed at hallowed
          rw [if_pos hbudget, hsome] at hallowed
          rw [← Option.some.inj hallowed]
          exact Nat.min_le_right _ _
  · -- cancelled, and nothing is read
    have hcheck : SubstreamReader.onOperation readIoError (check env) s =
        (.error (readIoError .cancelled), { s with op }) := by
      unfold SubstreamReader.onOperation
      rw [hrun]
    rw [Machine.bind_of_error hcheck]
    exact .inl ⟨h.polled hpolled, hpolled.stopped⟩

/-! Draining, and callbacks -/

variable {limits : ResourceLimits} {eager : Bool} {κ : Type} {entry : ℕ}

structure Reading.Tracked (limits : ResourceLimits) (eager : Bool) (folder : FolderLayout)
    (runs : List DecoderRun) (callbacks : List CallbackRun) (stream : Substream) (output : List UInt8)
    (s : Reading ω δ) : Prop where
  covered : Covered limits eager 0 s
  inStep : s.InStep folder runs callbacks stream output

theorem drain_tracked (hstop : stream.stop < 2 ^ 64) : ∀ (turns : ℕ) {s s' : Reading ω δ} {output : List UInt8},
    s.Tracked limits eager folder runs callbacks stream output →
      SubstreamReader.drain env turns s = (.ok (), s') →
        ¬s.op.Stopped ∧ ∃ more, s'.Tracked limits eager folder runs callbacks stream (output ++ more)
  | 0, _, _, _, _, hrun => by cases hrun
  | turns + 1, s, s', output, hs, hrun => by
    have hcovered := read_covered env 8192 s hs.covered
    have hread := read_inStep env 8192 hs.inStep hs.covered.backed.sound.within hstop
    unfold SubstreamReader.drain at hrun
    rw [Machine.bind_apply] at hrun
    unfold Machine.attempt at hrun
    rcases hresult : SubstreamReader.read env 8192 s with ⟨e | bytes, t⟩
    · rw [hresult] at hcovered hread hrun
      have htracked : ∀ {output'}, t.InStep folder runs callbacks stream output' →
          t.Tracked limits eager folder runs callbacks stream output' := fun hin => ⟨hcovered, hin⟩
      cases e with
      | interrupted =>
        -- the read is made again, and would fail if it had been cancelled
        rcases hread with ⟨hin, hkept⟩ | ⟨bytes, hin, hstopped⟩
        · obtain ⟨hrunning, hmore⟩ := drain_tracked hstop turns (htracked hin) hrun
          exact ⟨fun hstopped => hrunning (hkept hstopped), hmore⟩
        · exact absurd hstopped (drain_tracked hstop turns (htracked hin) hrun).1
      | _ => cases hrun
    · rw [hresult] at hcovered hread hrun
      have htracked : t.Tracked limits eager folder runs callbacks stream (output ++ bytes) :=
        ⟨Covered.mono hcovered (Nat.zero_le _), hread.inStep⟩
      refine ⟨hread.running, ?_⟩
      dsimp only at hrun
      split at hrun
      · cases hrun
        exact ⟨bytes, htracked⟩
      · obtain ⟨-, more, hmore⟩ := drain_tracked hstop turns htracked hrun
        rw [List.append_assoc] at hmore
        exact ⟨bytes ++ more, hmore⟩

/-- What a callback was given so far is what the decoder gave of the substream, unless the operation was
cancelled; and when it was given nothing, the substream was at its end. -/
structure Reading.Handing (limits : ResourceLimits) (eager : Bool) (folder : FolderLayout)
    (runs : List DecoderRun) (callbacks : List CallbackRun) (stream : Substream) (entry : ℕ)
    (handed : List (ℕ × List UInt8)) (output : List UInt8) (s : Reading ω δ) : Prop where
  tracked : s.Tracked limits eager folder runs ({ entry, handed } :: callbacks) stream output
  bytes : ¬s.op.Stopped → handed.flatMap Prod.snd = output.drop stream.start
  ended : ¬s.op.Stopped → (∃ size, 0 < size ∧ (size, []) ∈ handed) → s.content.remaining = 0

theorem run_handing (hstop : stream.stop < 2 ^ 64) (consumer : Consumer κ) :
    ∀ {s : Reading ω δ} {handed : List (ℕ × List UInt8)} {output : List UInt8},
    s.Handing limits eager folder runs callbacks stream entry handed output →
      ∃ handed' more, (consumer.run env s).2.Handing limits eager folder runs callbacks stream entry handed'
        (output ++ more) := by
  induction consumer with
  | done result =>
    intro s handed output hs
    refine ⟨handed, [], ?_⟩
    rw [List.append_nil]
    exact hs
  | read size next ih =>
    intro s handed output hs
    have hcovered := read_covered env size s hs.tracked.covered
    have hread := read_inStep env size hs.tracked.inStep hs.tracked.covered.backed.sound.within hstop
    unfold Consumer.run
    rcases hresult : SubstreamReader.read env size s with ⟨e | bytes, t⟩
    · rw [hresult] at hcovered hread
      rcases hread with ⟨hin, hkept⟩ | ⟨bytes, hin, hstopped⟩
      · refine ih _ ⟨⟨hcovered, hin⟩, fun hrunning => hs.bytes (mt hkept hrunning), fun hrunning hend => ?_⟩
        · have hremaining := hs.ended (mt hkept hrunning) hend
          have hplace := hs.tracked.inStep.counted.remaining
          have hplace' := hin.counted.remaining
          omega
      · have ht : t.Handing limits eager folder runs callbacks stream entry handed (output ++ bytes) :=
          ⟨⟨hcovered, hin⟩, fun hrunning => absurd hstopped hrunning,
            fun hrunning => absurd hstopped hrunning⟩
        obtain ⟨handed', more, hmore⟩ := ih (.error e) ht
        rw [List.append_assoc] at hmore
        exact ⟨handed', bytes ++ more, hmore⟩
    · rw [hresult] at hcovered hread
      have hstart := hs.tracked.inStep.counted.start
      -- what was read is handed over, and noted
      have hhanded : Reading.Handing limits eager folder runs callbacks stream entry
          (handed ++ [(size, bytes)]) (output ++ bytes)
          { t with op := { t.op with history := noteHanded size bytes t.op.history } } := by
        have hgave : (noteHanded size bytes t.op.history).Gave folder runs
            ({ entry, handed := handed ++ [(size, bytes)] } :: callbacks) (output ++ bytes) := by
          obtain ⟨hdecoders, hcallbacks⟩ := hread.inStep.gave
          unfold noteHanded
          rw [hcallbacks]
          exact ⟨hdecoders, rfl⟩
        refine ⟨⟨Covered.noteHanded hcovered size, hgave, hread.inStep.counted⟩, fun _ => ?_, fun _ => ?_⟩
        · rw [List.flatMap_append, hs.bytes hread.running, List.drop_append_of_le_length hstart,
            List.flatMap_singleton]
        · rintro ⟨size', hsize', hmem⟩
          show t.content.remaining = 0
          rcases List.mem_append.mp hmem with hbefore | hlast
          · have hremaining := hs.ended hread.running ⟨size', hsize', hbefore⟩
            have hplace := hs.tracked.inStep.counted.remaining
            have hplace' := hread.inStep.counted.remaining
            rw [List.length_append] at hplace'
            omega
          · have hpair : (size', []) = (size, bytes) := List.mem_singleton.mp hlast
            cases hpair
            exact hread.ended rfl hsize'
      obtain ⟨handed', more, hmore⟩ := ih (.ok bytes) hhanded
      rw [List.append_assoc] at hmore
      exact ⟨handed', bytes ++ more, hmore⟩

end

end R7z
