import R7z.SessionDecoders

/-! What a folder decodes to. All decoders of a folder are opened on the same packed streams with the same
password. When they give the front of one output, what the callback of an entry is given is cut from that
output, whatever was read before. -/

namespace R7z

open Effect Effect.Machine

section
variable {ω δ κ : Type} (env : Environment ω δ) (packs : PackedSource) (password : Option String)

/-- What a decoder of the folder has given since it was started, whatever was asked of it. -/
inductive Environment.Gave (folder : FolderLayout) : List UInt8 → FolderReader δ → Prop
  | start {ready : ReadyFolder δ} {reader : FolderReader δ} {op op₁ op₂ op₃ : Operation ω}
      (hbind : folder.bind env packs op = (.ok ready, op₁))
      (hstart : ready.decoder.start env password op₂ = (.ok reader, op₃)) : Gave folder [] reader
  | read {seen bytes : List UInt8} {reader reader' : FolderReader δ} {n : ℕ} {outside outside' : ω}
      (hgave : Gave folder seen reader)
      (hread : reader.read env n outside = (.ok bytes, reader', outside')) :
      Gave folder (seen ++ bytes) reader'
  | failed {seen : List UInt8} {reader reader' : FolderReader δ} {n : ℕ} {outside outside' : ω} {e : IoError}
      (hgave : Gave folder seen reader)
      (hread : reader.read env n outside = (.error e, reader', outside')) : Gave folder seen reader'

/-- Folders decode to one output each: a decoder gives the front of it. -/
def Environment.Decodes (output : FolderLayout → List UInt8) : Prop :=
  ∀ folder seen reader, env.Gave packs password folder seen reader → seen <+: output folder

def FolderReader.Recorded (op : Operation ω) (reader : FolderReader δ) : Prop :=
  ∃ run runs, op.history.decoders = run :: runs ∧ env.Gave packs password run.folder run.output reader

end

section
variable {ω δ κ : Type}

structure Reading.Aside (s s' : Reading ω δ) : Prop where
  reader : s'.content.reader = s.content.reader
  decoders : s'.op.history.decoders = s.op.history.decoders
  callbacks : s'.op.history.callbacks = s.op.history.callbacks

instance : Std.Refl (Reading.Aside (ω := ω) (δ := δ)) := ⟨fun _ => ⟨rfl, rfl, rfl⟩⟩

instance : IsTrans (Reading ω δ) Reading.Aside where
  trans _ _ _ h h' := ⟨h'.reader.trans h.reader, h'.decoders.trans h.decoders,
    h'.callbacks.trans h.callbacks⟩

variable (env : Environment ω δ)

namespace SubstreamReader

theorem onOperation_aside {α : Type} {toIo : R7zError → IoError} {m : OperationM ω α}
    (hm : Keeps (fun op => (op.history.decoders, op.history.callbacks)) m) :
    Moves (Reading.Aside (δ := δ)) (onOperation toIo m) := by
  intro s
  have hkept := hm s.op
  unfold onOperation
  rcases hrun : m s.op with ⟨e | a, op⟩
  · rw [hrun] at hkept
    exact ⟨rfl, congrArg Prod.fst hkept, congrArg Prod.snd hkept⟩
  · rw [hrun] at hkept
    exact ⟨rfl, congrArg Prod.fst hkept, congrArg Prod.snd hkept⟩

theorem quiet_aside {α : Type} {toIo : R7zError → IoError} {m : OperationM ω α} (hm : Moves Quiet m) :
    Moves (Reading.Aside (δ := δ)) (onOperation toIo m) :=
  onOperation_aside fun op => by
    have hcallbacks : (m op).2.history.callbacks = op.history.callbacks := by rw [(hm op).history]
    exact Prod.ext (hm op).decoders hcallbacks

theorem chargeDecoded_aside {toIo : R7zError → IoError} (bytes : UInt64) :
    Moves (Reading.Aside (ω := ω) (δ := δ)) (onOperation toIo (Operation.chargeDecoded bytes)) := by
  have hnote : Keeps (fun op : Operation ω => (op.history.decoders, op.history.callbacks))
      (Operation.recordHistory (Operation.noteCharge bytes)) := fun _ => rfl
  refine onOperation_aside (Keeps.bind (fun op => ?_) fun _ => hnote)
  rcases onBudget_cases (fun b => b.chargeDecoded bytes) op with ⟨budget, -, hrun⟩ | ⟨e, -, hrun⟩
  · rw [hrun]
  · rw [hrun]

theorem decodedRemaining_aside {toIo : R7zError → IoError} :
    Moves (Reading.Aside (ω := ω) (δ := δ)) (onOperation toIo Operation.decodedRemaining) := by
  refine onOperation_aside (Keeps.get.bind fun op => ?_)
  cases op.budget.limits.maxTotalDecodedBytes with
  | none => exact Keeps.pure _
  | some limit =>
    have hnote : Keeps (fun op : Operation ω => (op.history.decoders, op.history.callbacks))
        (Operation.recordHistory (Operation.noteSubtraction limit op.budget.decoded)) := fun _ => rfl
    exact hnote.bind fun _ => Keeps.pure _

theorem count_aside (bytes : List UInt8) : Moves Reading.Aside (SubstreamReader.count (δ := δ) env bytes) :=
  Moves.get.bind fun _ => Moves.ite
    ((Moves.modify fun _ => ⟨rfl, rfl, rfl⟩).bind fun _ => Moves.ite (quiet_aside (advance_quiet env _))
      (Moves.pure _)) (Moves.fail _)

theorem account_aside (bytes : List UInt8) : Moves Reading.Aside (SubstreamReader.account (δ := δ) env bytes) :=
  (Moves.modify fun _ => ⟨rfl, rfl, rfl⟩).bind fun _ => Moves.get.bind fun _ => Moves.ite
    ((chargeDecoded_aside _).bind fun _ => count_aside env bytes) (count_aside env bytes)

theorem read_keeps {I : Reading ω δ → Prop} (haside : ∀ s s', Reading.Aside s s' → I s → I s')
    (hread : ∀ n, Meets I (readDecoder env n) (fun _ => I) fun _ => I) (n : ℕ) :
    Meets I (SubstreamReader.read env n) (fun _ => I) fun _ => I := by
  have hwithin : ∀ limit, Meets I (SubstreamReader.readWithin env limit) (fun _ => I) fun _ => I := by
    intro limit
    refine (Moves.get.meets haside).bind fun s => (hread _).bind fun bytes => ?_
    exact fun t ht => Outcome.ite (fun _ => ht) fun _ =>
      (((account_aside env bytes).bind fun _ => Moves.pure bytes).meets haside) t ht
  refine ((quiet_aside (check_quiet env)).meets haside).bind fun _ =>
    (Moves.get.meets haside).bind fun s => ?_
  refine fun t ht => Outcome.ite (fun _ => ht) fun _ => ?_
  refine Meets.bind (decodedRemaining_aside.meets haside) (fun remaining => ?_) t ht
  refine fun u hu => Outcome.ite (fun _ => haside u _ ⟨rfl, rfl, rfl⟩ hu) fun _ => ?_
  cases s.content.allowed remaining with
  | none => exact hwithin _ u hu
  | some allowed => exact hwithin _ u hu

theorem drain_keeps {I : Reading ω δ → Prop} (haside : ∀ s s', Reading.Aside s s' → I s → I s')
    (hread : ∀ n, Meets I (readDecoder env n) (fun _ => I) fun _ => I) :
    ∀ turns, Meets I (SubstreamReader.drain env turns) (fun _ => I) fun _ => I
  | 0 => fun _ hs => hs
  | turns + 1 => by
    refine Meets.bind (Meets.attempt (read_keeps env haside hread 8192)) fun result => ?_
    cases result with
    | ok bytes => exact fun s hs => Outcome.ite (fun _ => hs) fun _ => drain_keeps haside hread turns s hs
    | error e =>
      cases e with
      | interrupted => exact drain_keeps haside hread turns
      | _ => exact fun _ hs => hs

end SubstreamReader

/-! What the record says of the decoder -/

variable (packs : PackedSource) (password : Option String)

def Reading.Recorded (s : Reading ω δ) : Prop := s.content.reader.Recorded env packs password s.op

variable {packs password}

theorem Reading.Recorded.aside {s s' : Reading ω δ} (hs' : s.Aside s') (h : s.Recorded env packs password) :
    s'.Recorded env packs password := by
  unfold Reading.Recorded FolderReader.Recorded
  rw [hs'.reader, hs'.decoders]
  exact h

theorem readDecoder_recorded (n : ℕ) : Meets (Reading.Recorded env packs password)
    (SubstreamReader.readDecoder env n) (fun _ => Reading.Recorded env packs password)
    fun _ => Reading.Recorded env packs password := by
  rintro s ⟨run, runs, hdecoders, hgave⟩
  unfold SubstreamReader.readDecoder readFolder
  rcases hread : s.content.reader.read env n s.op.outside with ⟨e | bytes, reader, outside⟩
  · exact ⟨run, runs, hdecoders, .failed hgave hread⟩
  · refine ⟨{ run with reads := run.reads ++ [bytes] }, runs, ?_, ?_⟩
    · show (noteRead bytes s.op.history).decoders = _
      unfold noteRead
      rw [hdecoders]
    · have houtput : ({ run with reads := run.reads ++ [bytes] } : DecoderRun).output = run.output ++ bytes := by
        unfold DecoderRun.output
        rw [List.flatten_append, List.flatten_singleton]
      rw [houtput]
      exact .read hgave hread

theorem noteHanded_recorded {s : Reading ω δ} (size : ℕ) (bytes : List UInt8)
    (h : s.Recorded env packs password) :
    ({ s with op := { s.op with history := noteHanded size bytes s.op.history } } : Reading ω δ).Recorded env
      packs password := by
  obtain ⟨run, runs, hdecoders, hgave⟩ := h
  exact ⟨run, runs, (EntryDecoder.noteHanded_decoders size bytes s.op.history).trans hdecoders, hgave⟩

theorem run_recorded (consumer : Consumer κ) : ∀ {s : Reading ω δ}, s.Recorded env packs password →
    (consumer.run env s).2.Recorded env packs password := by
  induction consumer with
  | done result => exact fun h => h
  | read size next ih =>
    intro s h
    have hread := SubstreamReader.read_keeps env (fun _ _ => Reading.Recorded.aside env)
      (readDecoder_recorded env) size s h
    unfold Consumer.run
    rcases hrun : SubstreamReader.read env size s with ⟨e | bytes, t⟩
    · rw [hrun] at hread
      exact ih _ hread
    · rw [hrun] at hread
      exact ih _ (noteHanded_recorded env size bytes hread)

theorem invoke_recorded (callback : Consumer κ) (entry : ℕ) {s : Reading ω δ}
    (h : s.Recorded env packs password) : (callback.invoke env entry s).2.Recorded env packs password := by
  obtain ⟨run, runs, hdecoders, hgave⟩ := h
  exact run_recorded env callback ⟨run, runs, hdecoders, hgave⟩

theorem substream_recorded {active active' : ActiveFolder δ} {op op' : Operation ω} {result : κ}
    {consume : Reading ω δ → Except CallbackError κ × Reading ω δ}
    (hconsume : ∀ s, s.Recorded env packs password → (consume s).2.Recorded env packs password)
    (h : active.reader.Recorded env packs password op)
    (hrun : active.readStream env consume op = (.ok (active', result), op')) :
    active'.reader.Recorded env packs password op' := by
  obtain ⟨stream, streams, s, s', -, hconsumed, hdrain, -, -, rfl, rfl⟩ := readStream_ok env hrun
  have hs := hconsume { content := active.openStream stream, op } h
  rw [hconsumed] at hs
  exact (SubstreamReader.drain_keeps env (fun _ _ => Reading.Recorded.aside env)
    (readDecoder_recorded env) _).ok hs hdrain

theorem skipStreams_recorded : ∀ (n : ℕ) {active active' : ActiveFolder δ} {op op' : Operation ω},
    active.reader.Recorded env packs password op →
      active.skipStreams env n op = (.ok active', op') → active'.reader.Recorded env packs password op'
  | 0, _, _, _, _, h, hrun => by
    cases hrun
    exact h
  | n + 1, active, active', op, op', h, hrun => by
    obtain ⟨middle, op₁, hskip, hrun⟩ := Machine.bind_eq_ok.mp hrun
    obtain ⟨⟨read, u⟩, op₂, hread, hpure⟩ := Machine.bind_eq_ok.mp hskip
    cases hpure
    exact skipStreams_recorded n (substream_recorded env (fun _ hs => hs) h hread) hrun

theorem skipTo_recorded {position : ℕ} {active active' : ActiveFolder δ} {op op' : Operation ω}
    (h : active.reader.Recorded env packs password op)
    (hrun : active.skipTo env position op = (.ok active', op')) :
    active'.reader.Recorded env packs password op' := by
  unfold ActiveFolder.skipTo at hrun
  split at hrun
  · exact skipStreams_recorded env _ h hrun
  · cases hrun

/-! Who was invoked -/

theorem readDecoder_callbacks (n : ℕ) (callbacks : List CallbackRun) :
    Meets (fun s : Reading ω δ => s.op.history.callbacks = callbacks) (SubstreamReader.readDecoder env n)
      (fun _ s => s.op.history.callbacks = callbacks) fun _ s => s.op.history.callbacks = callbacks := by
  intro s hs
  unfold SubstreamReader.readDecoder readFolder
  rcases hread : s.content.reader.read env n s.op.outside with ⟨e | bytes, reader, outside⟩
  · exact hs
  · show (noteRead bytes s.op.history).callbacks = callbacks
    unfold noteRead
    split
    · exact hs
    · exact hs

theorem run_callbacks (consumer : Consumer κ) : ∀ {s : Reading ω δ} {entry : ℕ}
    {handed : List (ℕ × List UInt8)} {callbacks : List CallbackRun},
    s.op.history.callbacks = { entry, handed } :: callbacks →
      ∃ handed', (consumer.run env s).2.op.history.callbacks = { entry, handed := handed' } :: callbacks := by
  induction consumer with
  | done result => exact fun h => ⟨_, h⟩
  | read size next ih =>
    intro s entry handed callbacks h
    have hread := SubstreamReader.read_keeps env
      (I := fun s => s.op.history.callbacks = { entry, handed } :: callbacks)
      (fun _ _ hs h => hs.callbacks.trans h) (fun n => readDecoder_callbacks env n _) size s h
    unfold Consumer.run
    rcases hrun : SubstreamReader.read env size s with ⟨e | bytes, t⟩
    · rw [hrun] at hread
      exact ih _ hread
    · rw [hrun] at hread
      have ht : t.op.history.callbacks = { entry, handed } :: callbacks := hread
      refine @ih (.ok bytes) _ entry (handed ++ [(size, bytes)]) callbacks ?_
      show (noteHanded size bytes t.op.history).callbacks = _
      unfold noteHanded
      rw [ht]

theorem substream_callbacks {active active' : ActiveFolder δ} {op op' : Operation ω} {result : κ}
    {consume : Reading ω δ → Except CallbackError κ × Reading ω δ}
    (hrun : active.readStream env consume op = (.ok (active', result), op')) :
    ∃ stream s, consume { content := active.openStream stream, op } = (.ok result, s) ∧
      op'.history.callbacks = s.op.history.callbacks := by
  obtain ⟨stream, streams, s, s', -, hconsumed, hdrain, -, -, rfl, rfl⟩ := readStream_ok env hrun
  refine ⟨stream, s, hconsumed, ?_⟩
  exact (SubstreamReader.drain_keeps env (I := fun t => t.op.history.callbacks = s.op.history.callbacks)
    (fun _ _ hs h => hs.callbacks.trans h) (fun n => readDecoder_callbacks env n _) _).ok rfl hdrain

theorem skipStreams_callbacks : ∀ (n : ℕ) {active active' : ActiveFolder δ} {op op' : Operation ω},
    active.skipStreams env n op = (.ok active', op') → op'.history.callbacks = op.history.callbacks
  | 0, _, _, _, _, hrun => by
    cases hrun
    rfl
  | n + 1, active, active', op, op', hrun => by
    obtain ⟨middle, op₁, hskip, hrun⟩ := Machine.bind_eq_ok.mp hrun
    obtain ⟨⟨read, u⟩, op₂, hread, hpure⟩ := Machine.bind_eq_ok.mp hskip
    cases hpure
    obtain ⟨stream, s, hnobody, hcallbacks⟩ := substream_callbacks env hread
    cases hnobody
    exact (skipStreams_callbacks n hrun).trans hcallbacks

theorem skipTo_callbacks {position : ℕ} {active active' : ActiveFolder δ} {op op' : Operation ω}
    (hrun : active.skipTo env position op = (.ok active', op')) :
    op'.history.callbacks = op.history.callbacks := by
  unfold ActiveFolder.skipTo at hrun
  split at hrun
  · exact skipStreams_callbacks env _ hrun
  · cases hrun

theorem finishFolder_callbacks {active : ActiveFolder δ} {mode : CompletionMode}
    {verification : ReadVerification} {op op' : Operation ω}
    (hrun : active.finish env mode op = (.ok verification, op')) :
    op'.history.callbacks = op.history.callbacks := by
  unfold ActiveFolder.finish at hrun
  split at hrun
  · cases hrun
    rfl
  obtain ⟨skipped, op₁, hskip, hrun⟩ := Machine.bind_eq_ok.mp hrun
  have hcallbacks := skipStreams_callbacks env _ hskip
  split at hrun
  · cases hrun
  obtain ⟨extra, op₂, hextra, hrun⟩ := Machine.bind_eq_ok.mp hrun
  have hsteady := (readExtra_steady env skipped).ok hextra
  split at hrun
  · cases hrun
  obtain ⟨_, op₃, hdigest, hrun⟩ := Machine.bind_eq_ok.mp hrun
  have hlast : op₃ = op₂ := (congrArg Prod.snd hdigest).symm
  cases hrun
  rw [hlast, hsteady.history]
  exact hcallbacks

/-! Decoders of folders -/

theorem start_recorded {location : StreamLocation} {active : ActiveFolder δ} {op op' : Operation ω}
    (hrun : (do
      let ready ← location.folder.bind env packs
      ready.start env password : OperationM ω (ActiveFolder δ)) op = (.ok active, op')) :
    active.reader.Recorded env packs password op' ∧ op'.history.callbacks = op.history.callbacks := by
  obtain ⟨ready, op₁, hbind, hstart⟩ := Machine.bind_eq_ok.mp hrun
  obtain ⟨-, hfolder⟩ := FolderLayout.bind_chained env hbind
  have hbound : op₁.history.callbacks = op.history.callbacks := by
    rw [((bind_steady env location.folder packs).ok hbind).history]
  obtain ⟨reader, middle, hreader, hdecoders, hcallbacks, rfl⟩ := ready.start_ok env hstart
  have hsteady := (startReady_steady env ready password).ok hreader
  refine ⟨⟨{ folder := ready.folder, reads := [] }, _, hdecoders.trans (startDecoder_ok env hreader), ?_⟩, ?_⟩
  · obtain ⟨reader', op₂, hdecoder, hpure⟩ := Machine.bind_eq_ok.mp hreader
    obtain ⟨_, op₃, _, hpure⟩ := Machine.bind_eq_ok.mp hpure
    obtain rfl : reader' = reader := Except.ok.inj (congrArg Prod.fst hpure)
    rw [hfolder]
    exact .start hbind hdecoder
  · rw [hcallbacks, hsteady.history]
    exact hbound

namespace EntryDecoder

/-- Between calls: the folder in hand is read with the decoder that was started last. -/
structure Recorded (packs : PackedSource) (password : Option String) (decoder : EntryDecoder ω δ) : Prop where
  source : decoder.source = packs
  current : ∀ index active, decoder.current = some (index, active) →
    active.reader.Recorded env packs password decoder.op
  password : decoder.password = password

theorem onOperation_ok {α : Type} {m : OperationM ω α} {a : α} {decoder decoder' : EntryDecoder ω δ}
    (hrun : onOperation m decoder = (.ok a, decoder')) :
    ∃ op, m decoder.op = (.ok a, op) ∧ decoder' = { decoder with op } := by
  obtain ⟨hresult, hstate⟩ := Prod.mk.inj hrun
  exact ⟨_, Prod.ext hresult rfl, hstate.symm⟩

theorem onOperation_source {α : Type} (m : OperationM ω α) :
    Keeps (fun decoder : EntryDecoder ω δ => (decoder.source, decoder.password)) (onOperation m) := fun _ => rfl

theorem complete_source (active : Option (ℕ × ActiveFolder δ)) :
    Keeps (fun decoder : EntryDecoder ω δ => (decoder.source, decoder.password)) (complete env active) := by
  cases active with
  | none => exact Keeps.pure ()
  | some active =>
    refine Keeps.get.bind fun decoder => Keeps.bind (fun _ => rfl) fun result => ?_
    cases result with
    | ok verification => exact fun _ => rfl
    | error e => exact fun _ => rfl

theorem selectFolder_source (previous : Option (ℕ × ActiveFolder δ)) (location : StreamLocation) :
    Keeps (fun decoder : EntryDecoder ω δ => (decoder.source, decoder.password))
      (selectFolder env previous location) := by
  have hopen : ∀ previous, Keeps (fun decoder : EntryDecoder ω δ => (decoder.source, decoder.password))
      (openFolder env previous location) :=
    fun previous => (complete_source env previous).bind fun _ => Keeps.get.bind fun _ => onOperation_source _
  cases previous with
  | none => exact hopen none
  | some active =>
    intro decoder
    unfold selectFolder
    dsimp only
    split
    · rfl
    · exact hopen _ decoder

theorem readStream_source (entry : ℕ) (location : StreamLocation) (callback : Consumer κ) :
    Keeps (fun decoder : EntryDecoder ω δ => (decoder.source, decoder.password))
      (readStream env entry location callback) :=
  Keeps.get.bind fun decoder => Keeps.bind (fun _ => rfl) fun _ =>
    (selectFolder_source env decoder.current location).bind fun _ => (onOperation_source _).bind fun _ =>
      Keeps.bind (fun _ => rfl) fun _ => Keeps.pure _

theorem complete_callbacks {active : Option (ℕ × ActiveFolder δ)} {decoder decoder' : EntryDecoder ω δ}
    (hrun : complete env active decoder = (.ok (), decoder')) :
    decoder'.op.history.callbacks = decoder.op.history.callbacks := by
  cases active with
  | none =>
    cases hrun
    rfl
  | some active =>
    obtain ⟨d, d₁, hget, hrun⟩ := Machine.bind_eq_ok.mp hrun
    cases hget
    obtain ⟨result, d₂, hattempt, hrun⟩ := Machine.bind_eq_ok.mp hrun
    cases result with
    | error e => cases hrun
    | ok verification =>
      obtain ⟨hresult, hstate⟩ := Prod.mk.inj hattempt
      obtain ⟨op, hfinish, rfl⟩ := onOperation_ok (Prod.ext (Except.ok.inj hresult) hstate)
      cases hrun
      exact finishFolder_callbacks env hfinish

theorem selectFolder_recorded {previous : Option (ℕ × ActiveFolder δ)} {location : StreamLocation}
    {active : ActiveFolder δ} {decoder decoder' : EntryDecoder ω δ}
    (h : ∀ index folder, previous = some (index, folder) →
      folder.reader.Recorded env decoder.source decoder.password decoder.op)
    (hrun : selectFolder env previous location decoder = (.ok active, decoder')) :
    active.reader.Recorded env decoder.source decoder.password decoder'.op ∧
      decoder'.op.history.callbacks = decoder.op.history.callbacks := by
  have hopen : ∀ {previous}, openFolder env previous location decoder = (.ok active, decoder') →
      active.reader.Recorded env decoder.source decoder.password decoder'.op ∧
        decoder'.op.history.callbacks = decoder.op.history.callbacks := by
    intro previous hrun
    obtain ⟨_, d₁, hcomplete, hrun⟩ := Machine.bind_eq_ok.mp hrun
    obtain ⟨d, d₂, hget, hrun⟩ := Machine.bind_eq_ok.mp hrun
    cases hget
    have hsource := (complete_source env previous).ok hcomplete
    have hcallbacks := complete_callbacks env hcomplete
    obtain ⟨op, hstart, rfl⟩ := onOperation_ok hrun
    obtain ⟨hrecorded, hstarted⟩ := start_recorded env hstart
    obtain ⟨hpacks, hpassword⟩ := Prod.mk.inj hsource
    rw [hpacks, hpassword] at hrecorded
    exact ⟨hrecorded, hstarted.trans hcallbacks⟩
  cases previous with
  | none => exact hopen hrun
  | some current =>
    obtain ⟨index, folder⟩ := current
    unfold selectFolder at hrun
    dsimp only at hrun
    split at hrun
    · cases hrun
      exact ⟨h index active rfl, rfl⟩
    · exact hopen hrun

theorem readStream_failed {entry : ℕ} {location : StreamLocation} {callback : Consumer κ} {e : R7zError}
    {decoder decoder' : EntryDecoder ω δ}
    (hrun : readStream env entry location callback decoder = (.error e, decoder')) :
    decoder'.current = none := by
  have hmeets : Meets (fun _ : EntryDecoder ω δ => True) (readStream env entry location callback)
      (fun _ _ => True) fun _ d => d.current = none := by
    refine Meets.get_bind fun d _ => ?_
    have hclose : Meets (fun _ : EntryDecoder ω δ => True) (setCurrent none) (fun _ d => d.current = none)
        fun _ d => d.current = none := fun _ _ => rfl
    refine Meets.bind hclose (fun _ => ((selectFolder_keeps env d.current location).meets
      fun current => current = none).bind fun active => ?_) d trivial
    have hkeeps : ∀ m : OperationM ω (ActiveFolder δ × κ),
        Keeps EntryDecoder.current (onOperation (δ := δ) m) := fun _ _ => rfl
    exact ((hkeeps _).meets fun current => current = none).bind fun _ _ _ => trivial
  exact hmeets.error trivial hrun

theorem readStream_recorded {entry : ℕ} {location : StreamLocation} {callback : Consumer κ} {result : κ}
    {decoder decoder' : EntryDecoder ω δ} {packs : PackedSource} {password : Option String}
    (h : decoder.Recorded env packs password)
    (hrun : readStream env entry location callback decoder = (.ok result, decoder')) :
    decoder'.Recorded env packs password ∧
      (∃ reader : FolderReader δ, reader.Recorded env packs password decoder'.op) ∧
      ∃ s s', s.op.history.callbacks = { entry, handed := [] } :: decoder.op.history.callbacks ∧
        callback.run env s = (.ok result, s') ∧ decoder'.op.history.callbacks = s'.op.history.callbacks := by
  have hsource := (readStream_source env entry location callback).ok hrun
  obtain ⟨hpacks, hpassword⟩ := Prod.mk.inj hsource
  obtain ⟨d, d₁, hget, hrun⟩ := Machine.bind_eq_ok.mp hrun
  cases hget
  obtain ⟨_, d₂, hclose, hrun⟩ := Machine.bind_eq_ok.mp hrun
  cases hclose
  obtain ⟨active, d₃, hselect, hrun⟩ := Machine.bind_eq_ok.mp hrun
  obtain ⟨hactive, hselected⟩ := selectFolder_recorded env (fun index folder hcurrent => by
    show folder.reader.Recorded env decoder.source decoder.password decoder.op
    rw [h.source, h.password]
    exact h.current index folder hcurrent) hselect
  obtain ⟨⟨last, result'⟩, d₄, hread, hrun⟩ := Machine.bind_eq_ok.mp hrun
  obtain ⟨op, hstep, rfl⟩ := onOperation_ok hread
  obtain ⟨skipped, op₁, hskip, hstream⟩ := Machine.bind_eq_ok.mp hstep
  obtain ⟨_, d₅, hopen, hrun⟩ := Machine.bind_eq_ok.mp hrun
  cases hopen
  cases hrun
  rw [h.source, h.password] at hactive
  have hlast : last.reader.Recorded env packs password op :=
    substream_recorded env (fun s hs => invoke_recorded env callback entry hs)
      (skipTo_recorded env hactive hskip) hstream
  obtain ⟨stream, s, hinvoke, hcallbacks⟩ := substream_callbacks env hstream
  refine ⟨⟨hpacks.trans h.source, fun index folder hcurrent => ?_, hpassword.trans h.password⟩,
    ⟨_, hlast⟩, _, s, ?_, hinvoke, hcallbacks⟩
  · cases hcurrent
    exact hlast
  · exact congrArg _ ((skipTo_callbacks env hskip).trans hselected)

theorem readEmpty_callbacks {entry : ℕ} {callback : Consumer κ} {result : κ} {decoder decoder' : EntryDecoder ω δ}
    (hrun : readEmpty entry callback decoder = (.ok result, decoder')) :
    ∃ handed, decoder'.op.history.callbacks = { entry, handed } :: decoder.op.history.callbacks ∧
      handed.flatMap Prod.snd = [] := by
  have hhistory : decoder'.op.history = (callback.runEmpty (noteInvoked entry decoder.op.history)).2 :=
    (congrArg (fun r : Except R7zError κ × EntryDecoder ω δ => r.2.op.history) hrun).symm
  rw [hhistory]
  exact @runEmpty_callbacks κ callback (noteInvoked entry decoder.op.history) entry []
    decoder.op.history.callbacks rfl rfl

theorem onOperation_recorded {α : Type} {packs : PackedSource} {password : Option String} {m : OperationM ω α}
    (hm : Keeps (fun op => op.history.decoders) m) : Meets (Recorded (δ := δ) env packs password) (onOperation m)
      (fun _ => Recorded env packs password) fun _ => Recorded env packs password := by
  intro decoder h
  have hdecoders : (m decoder.op).2.history.decoders = decoder.op.history.decoders := hm decoder.op
  have hafter : ({ decoder with op := (m decoder.op).2 } : EntryDecoder ω δ).Recorded env packs password := by
    refine ⟨h.source, fun index active hcurrent => ?_, h.password⟩
    obtain ⟨run, runs, hrecord, hgave⟩ := h.current index active hcurrent
    exact ⟨run, runs, hdecoders.trans hrecord, hgave⟩
  unfold onOperation Machine.focus
  rcases hrun : m decoder.op with ⟨e | a, op⟩
  · rw [hrun] at hafter
    exact hafter
  · rw [hrun] at hafter
    exact hafter

theorem read_recorded {packs : PackedSource} {password : Option String} (entry : ReadableEntry)
    (callback : Consumer κ) : Meets (Recorded env packs password) (read env entry callback)
      (fun _ => Recorded env packs password) fun _ => Recorded env packs password := by
  have hcheck := @onOperation_recorded ω δ env Unit packs password _ fun op => (check_quiet env op).decoders
  refine Meets.onError (Meets.mono (E := fun _ => Recorded env packs password) (hcheck.bind fun _ => ?_)
    (fun _ h => h) (fun _ _ h => h) fun _ _ h => ⟨h.source, h.current, h.password⟩)
  cases entry.content with
  | Empty =>
    exact onOperation_recorded env fun op => runEmpty_decoders callback (noteInvoked entry.index op.history)
  | Stream location =>
    refine .of_outcomes (fun decoder result after h hrun => (readStream_recorded env h hrun).1)
      fun decoder e after h hrun => ?_
    obtain ⟨hpacks, hpassword⟩ := Prod.mk.inj
      ((readStream_source env entry.index location callback).error hrun)
    refine ⟨hpacks.trans h.source, fun index active hcurrent => ?_, hpassword.trans h.password⟩
    rw [readStream_failed env hrun] at hcurrent
    cases hcurrent

theorem finish_recorded {packs : PackedSource} {password : Option String} :
    Meets (Recorded (ω := ω) (δ := δ) env packs password) (finish env)
      (fun _ => Recorded env packs password) fun _ => Recorded env packs password := by
  have hsource : Keeps (fun decoder : EntryDecoder ω δ => (decoder.source, decoder.password)) (finish env) :=
    Keeps.get.bind fun decoder => Keeps.bind (fun _ => rfl) fun _ => (complete_source env decoder.current).bind
      fun _ => (onOperation_source _).bind fun _ => Keeps.get.bind fun _ => Keeps.pure _
  have hcurrent : Meets (fun _ : EntryDecoder ω δ => True) (finish env) (fun _ decoder => decoder.current = none)
      fun _ decoder => decoder.current = none := by
    refine Meets.get_bind fun decoder _ => ?_
    have hclose : Meets (fun _ : EntryDecoder ω δ => True) (setCurrent none) (fun _ d => d.current = none)
        fun _ d => d.current = none := fun _ _ => rfl
    have hcheck : Keeps EntryDecoder.current (onOperation (δ := δ) (check env)) := fun _ => rfl
    refine Meets.bind hclose (fun _ => ((complete_keeps env decoder.current).meets
      fun current => current = none).bind fun _ => (hcheck.meets fun current => current = none).bind
        fun _ => Meets.get_bind fun d hd => Meets.pure (P := fun d => d.current = none)
          (Q := fun _ d => d.current = none) (fun _ hd => hd) d hd) decoder trivial
  have hclosed : ∀ {decoder after : EntryDecoder ω δ}, decoder.Recorded env packs password →
      (after.source, after.password) = (decoder.source, decoder.password) → after.current = none →
        after.Recorded env packs password := by
    intro decoder after h hsame hnone
    obtain ⟨hpacks, hpassword⟩ := Prod.mk.inj hsame
    refine ⟨hpacks.trans h.source, fun index active hsome => ?_, hpassword.trans h.password⟩
    rw [hnone] at hsome
    cases hsome
  refine .of_outcomes (fun decoder verification after h hrun => ?_) fun decoder e after h hrun => ?_
  · exact hclosed h (hsource.ok hrun) (hcurrent.ok trivial hrun)
  · exact hclosed h (hsource.error hrun) (hcurrent.error trivial hrun)

end EntryDecoder

/-! What callbacks are offered -/

def Substream.slice (stream : Substream) (output : List UInt8) : List UInt8 :=
  (output.drop stream.start).take (stream.stop - stream.start)

def ReadableEntry.bytes (output : FolderLayout → List UInt8) (entry : ReadableEntry) : List UInt8 :=
  match entry.content with
  | .Empty => []
  | .Stream location => location.stream.slice (output location.folder)

/-- The callback was given the front of the bytes, and all of them when it read up to the end. -/
structure CallbackRun.Offered (bytes : List UInt8) (callback : CallbackRun) : Prop where
  front : callback.bytes <+: bytes
  ended : (∃ size, 0 < size ∧ (size, []) ∈ callback.handed) → callback.bytes = bytes

theorem CallbackRun.Given.offered {crc32 : List UInt8 → UInt32} {stream : Substream} {run : DecoderRun}
    {callback : CallbackRun} (h : callback.Given crc32 stream run) {output : List UInt8}
    (hfront : run.output <+: output) : callback.Offered (stream.slice output) := by
  have hwhole : ({ run with reads := [output] } : DecoderRun).output = output := List.flatten_singleton
  have hslice : stream.slice output = run.slice stream := by
    have hsame := @DecoderRun.Matched.slice_eq run { run with reads := [output] } stream
      (by rw [hwhole]; exact hfront) h.matched.stop
    rw [← hsame]
    unfold DecoderRun.slice
    rw [hwhole]
    rfl
  rw [hslice]
  exact ⟨h.bytes, h.ended⟩

theorem EntryDecoder.read_ok {entry : ReadableEntry} {callback : Consumer κ} {result : κ}
    {decoder decoder' : EntryDecoder ω δ}
    (hrun : EntryDecoder.read env entry callback decoder = (.ok result, decoder')) :
    ∃ op, op.history = decoder.op.history ∧
      (match entry.content with
        | .Empty => EntryDecoder.readEmpty entry.index callback
        | .Stream location => EntryDecoder.readStream env entry.index location callback)
        ({ decoder with op } : EntryDecoder ω δ) = (.ok result, decoder') := by
  unfold EntryDecoder.read Machine.onError at hrun
  dsimp only at hrun
  split at hrun
  · rename_i a after hread
    cases hrun
    obtain ⟨_, checked, hcheck, hread⟩ := Machine.bind_eq_ok.mp hread
    obtain ⟨op, hquiet, rfl⟩ := EntryDecoder.onOperation_ok hcheck
    have hmoved := (check_quiet env).ok hquiet
    refine ⟨op, ?_, hread⟩
    rw [hmoved.history, hmoved.decoders]
  · cases hrun

theorem EntryDecoder.Recorded.history {packs : PackedSource} {password : Option String}
    {decoder : EntryDecoder ω δ} (h : decoder.Recorded env packs password) {op : Operation ω}
    (hsame : op.history = decoder.op.history) :
    ({ decoder with op } : EntryDecoder ω δ).Recorded env packs password := by
  refine ⟨h.source, fun index active hcurrent => ?_, h.password⟩
  obtain ⟨run, runs, hrecord, hgave⟩ := h.current index active hcurrent
  refine ⟨run, runs, ?_, hgave⟩
  show op.history.decoders = _
  rw [hsame]
  exact hrecord

theorem EntryDecoder.read_runs {entry : ReadableEntry} {callback : Consumer κ} {result : κ}
    {location : StreamLocation} {decoder decoder' : EntryDecoder ω δ} {packs : PackedSource}
    {password : Option String} (hcontent : entry.content = .Stream location)
    (h : decoder.Recorded env packs password)
    (hrun : EntryDecoder.read env entry callback decoder = (.ok result, decoder')) :
    ∃ s s' : Reading ω δ, s.op.history.callbacks =
        { entry := entry.index, handed := [] } :: decoder.op.history.callbacks ∧
      callback.run env s = (.ok result, s') ∧ decoder'.op.history.callbacks = s'.op.history.callbacks := by
  obtain ⟨op, hsame, hread⟩ := EntryDecoder.read_ok env hrun
  rw [hcontent] at hread
  obtain ⟨-, -, s, s', hinvoked, hconsumed, hcallbacks⟩ :=
    EntryDecoder.readStream_recorded env (h.history env hsame) hread
  refine ⟨s, s', hinvoked.trans ?_, hconsumed, hcallbacks⟩
  show _ :: op.history.callbacks = _
  rw [hsame]

theorem EntryDecoder.read_offers {limits : ResourceLimits} {all : List StreamLocation} (hall : Located all)
    {entry : ReadableEntry} {callback : Consumer κ} {result : κ} {decoder decoder' : EntryDecoder ω δ}
    {packs : PackedSource} {password : Option String}
    (hentry : ∀ location, entry.content = .Stream location → location ∈ all)
    (hknown : decoder.Known env.crc32 limits all) (h : decoder.Recorded env packs password)
    (hrun : EntryDecoder.read env entry callback decoder = (.ok result, decoder')) :
    ∃ given, decoder'.op.history.callbacks = given :: decoder.op.history.callbacks ∧
      given.entry = entry.index ∧
      ∀ output, env.Decodes packs password output → given.Offered (entry.bytes output) := by
  obtain ⟨-, hserved⟩ := (EntryDecoder.read_knows env hall entry callback hentry).ok hknown hrun
  obtain ⟨op, hsame, hread⟩ := EntryDecoder.read_ok env hrun
  unfold EntryDecoder.Served at hserved
  unfold ReadableEntry.bytes
  cases hcontent : entry.content with
  | Empty =>
    rw [hcontent] at hread
    obtain ⟨handed, hhanded, hnone⟩ := EntryDecoder.readEmpty_callbacks hread
    refine ⟨_, hhanded.trans (congrArg _ (congrArg History.callbacks hsame)), rfl, fun output _ =>
      ⟨?_, fun _ => hnone⟩⟩
    show handed.flatMap Prod.snd <+: []
    rw [hnone]
  | Stream location =>
    rw [hcontent] at hread hserved
    obtain ⟨-, ⟨reader, run, runs, hrecord, hgave⟩, -⟩ :=
      EntryDecoder.readStream_recorded env (h.history env hsame) hread
    obtain ⟨s, s', hinvoked, hconsumed, hcallbacks⟩ := EntryDecoder.read_runs env hcontent h hrun
    obtain ⟨handed, hhanded⟩ := run_callbacks env callback hinvoked
    rw [hconsumed] at hhanded
    obtain ⟨run', runs', given, callbacks, hdecoders, hgiven, hfolder, hindex, hslice⟩ := hserved.given
    obtain ⟨rfl, -⟩ := List.cons.inj (hdecoders.symm.trans hrecord)
    obtain ⟨hrecorded, -⟩ := List.cons.inj (hgiven.symm.trans (hcallbacks.trans hhanded))
    refine ⟨given, ?_, hindex, fun output hdecodes => ?_⟩
    · rw [hrecorded]
      exact hcallbacks.trans hhanded
    · show given.Offered (location.stream.slice (output location.folder))
      rw [← hfolder]
      exact hslice.offered (hdecodes _ _ _ hgave)

end

/-! Sources that are copied decode to one output each. -/

theorem external_determined {α : Type} {call : Unit → Except R7zError α × Unit} :
    Determined (Operation.external call) := by
  intro op op' a a' t t' h h'
  exact Except.ok.inj ((congrArg Prod.fst h).symm.trans (congrArg Prod.fst h'))

section
variable (memory : List UInt8)

theorem openPacked_determined (packs : PackedSource) :
    ∀ streams, Determined (openPacked (checking memory) packs streams)
  | [] => Determined.pure _
  | stream :: streams => by
    have hreader : Determined (packs.reader (checking memory) stream) := by
      unfold PackedSource.reader
      split
      · exact external_determined
      · exact Determined.fail _
    exact hreader.bind fun _ _ _ _ => (openPacked_determined packs streams).bind fun _ _ _ _ => Determined.pure _

theorem bind_determined (folder : FolderLayout) (packs : PackedSource) :
    Determined (folder.bind (checking memory) packs) := by
  have hplan : Determined (DecoderPlan.compileWithBudget (checking memory) folder.folder folder.graph
      folder.unpackSize folder.coderSizes folder.streams.sizes) :=
    (Determined.ofExcept _).bind fun _ _ _ _ => (Determined.ofExcept _).bind fun _ _ _ _ =>
      (Determined.unit _).bind fun _ _ _ _ => Determined.pure _
  exact hplan.bind fun _ _ _ _ => (openPacked_determined memory packs _).bind fun _ _ _ _ =>
    (Determined.ofExcept _).bind fun _ _ _ _ => Determined.pure _

theorem openSteps_determined (password : Option String) : ∀ (steps : List DecodeStep)
    (reader : CheckedReader (List UInt8)), Determined (openSteps (checking memory) password steps reader)
  | [], _ => Determined.pure _
  | step :: steps, reader => by
    have hopen : Determined (step.open (checking memory) password reader) :=
      (Determined.unit _).bind fun _ _ _ _ => external_determined.bind fun _ _ _ _ => by
        cases step.output with
        | Known size => exact Determined.pure _
        | Unknown => exact Determined.pure _
    exact hopen.bind fun _ _ _ _ => openSteps_determined password steps _

theorem startDecoder_determined (decoder : ReadyDecoder (List UInt8)) (password : Option String) :
    Determined (decoder.start (checking memory) password) := by
  have hopen : ∀ input : BoundInput (List UInt8), Determined (input.open (checking memory) password) :=
    fun input => openSteps_determined memory password _ _
  unfold ReadyDecoder.start
  cases decoder.topology with
  | Chain steps input => exact (openSteps_determined memory password _ _).bind fun _ _ _ _ => Determined.pure _
  | Bcj2 main call jump control outputSize =>
    refine (Determined.unit _).bind fun _ _ _ _ => (hopen main).bind fun _ _ _ _ => (hopen call).bind fun _ _ _ _ =>
      (hopen jump).bind fun _ _ _ _ => (hopen control).bind fun _ _ _ _ => external_determined.bind ?_
    -- nothing is copied through BCJ2
    intro reader op t h
    cases h

def CheckedReader.left (reader : CheckedReader (List UInt8)) : List UInt8 :=
  match reader.bound with
  | none => reader.inner
  | some (remaining, _) => reader.inner.take remaining

def FolderReader.left (reader : FolderReader (List UInt8)) : List UInt8 :=
  match reader with
  | .Stream reader => reader.left
  | .Buffered bytes => bytes

theorem take_eq_append {inner : List UInt8} {m remaining : ℕ} (h : m ≤ remaining) :
    inner.take remaining = inner.take m ++ (inner.drop m).take (remaining - (inner.take m).length) := by
  rw [List.length_take]
  rcases Nat.le_total m inner.length with hle | hge
  · rw [Nat.min_eq_left hle, ← List.take_add, Nat.add_sub_cancel' h]
  · rw [List.drop_eq_nil_of_le hge, List.take_nil, List.append_nil, List.take_of_length_le hge,
      List.take_of_length_le (hge.trans h)]

theorem CheckedReader.read_left (n : ℕ) (reader : CheckedReader (List UInt8)) :
    ∃ reader', (∃ bytes, reader.read (checking memory) n () = (.ok bytes, reader', ()) ∧
        reader.left = bytes ++ reader'.left) ∨
      (∃ e, reader.read (checking memory) n () = (.error e, reader', ()) ∧ reader.left = reader'.left) := by
  obtain ⟨inner, bound⟩ := reader
  cases bound with
  | none => exact ⟨⟨inner.drop n, none⟩, .inl ⟨inner.take n, rfl, (List.take_append_drop n inner).symm⟩⟩
  | some bound =>
    obtain ⟨remaining, fin⟩ := bound
    unfold CheckedReader.read
    dsimp only
    split
    · exact ⟨_, .inl ⟨[], rfl, rfl⟩⟩
    split
    · rename_i hzero
      cases fin with
      | Sized => exact ⟨_, .inl ⟨[], rfl, rfl⟩⟩
      | Terminated =>
        have hnone : ∀ inner : List UInt8, (⟨inner, some (remaining, .Terminated)⟩ : CheckedReader (List UInt8)).left = [] := by
          intro inner
          show inner.take remaining = []
          rw [hzero, List.take_zero]
        refine ⟨⟨inner.drop 1, some (remaining, .Terminated)⟩, ?_⟩
        rw [hnone, hnone]
        by_cases hend : (inner.take 1).isEmpty
        · exact .inl ⟨[], congrArg (fun r => (r, _, ())) (if_pos hend), rfl⟩
        · exact .inr ⟨.invalidData, congrArg (fun r => (r, _, ())) (if_neg hend), rfl⟩
    · have hleft := @take_eq_append inner (min remaining n) remaining (Nat.min_le_left _ _)
      refine ⟨⟨inner.drop (min remaining n), some (remaining - (inner.take (min remaining n)).length, fin)⟩, ?_⟩
      by_cases hend : (inner.take (min remaining n)).isEmpty
      · refine .inr ⟨.unexpectedEof, congrArg (fun r => (r, _, ())) (if_pos hend), ?_⟩
        have hnothing := List.isEmpty_iff.mp hend
        rw [hnothing, List.nil_append] at hleft
        rw [hnothing]
        exact hleft
      · exact .inl ⟨_, congrArg (fun r => (r, _, ())) (if_neg hend), hleft⟩

theorem FolderReader.read_left (n : ℕ) (reader : FolderReader (List UInt8)) :
    ∃ reader', (∃ bytes, reader.read (checking memory) n () = (.ok bytes, reader', ()) ∧
        reader.left = bytes ++ reader'.left) ∨
      (∃ e, reader.read (checking memory) n () = (.error e, reader', ()) ∧ reader.left = reader'.left) := by
  cases reader with
  | Stream reader =>
    obtain ⟨reader', ⟨bytes, hrun, hleft⟩ | ⟨e, hrun, hleft⟩⟩ := reader.read_left memory n
    · exact ⟨.Stream reader', .inl ⟨bytes, congrArg (fun r => (r.1, FolderReader.Stream r.2.1, r.2.2)) hrun, hleft⟩⟩
    · exact ⟨.Stream reader', .inr ⟨e, congrArg (fun r => (r.1, FolderReader.Stream r.2.1, r.2.2)) hrun, hleft⟩⟩
  | Buffered bytes =>
    exact ⟨.Buffered (bytes.drop n), .inl ⟨bytes.take n, rfl, (List.take_append_drop n bytes).symm⟩⟩

def Started (packs : PackedSource) (password : Option String) (folder : FolderLayout)
    (start : FolderReader (List UInt8)) : Prop :=
  ∃ ready op op₁ op₂ op₃, folder.bind (checking memory) packs op = (.ok ready, op₁) ∧
    ready.decoder.start (checking memory) password op₂ = (.ok start, op₃)

theorem Started.unique {packs : PackedSource} {password : Option String} {folder : FolderLayout}
    {start start' : FolderReader (List UInt8)} (h : Started memory packs password folder start)
    (h' : Started memory packs password folder start') : start = start' := by
  obtain ⟨ready, op, op₁, op₂, op₃, hbind, hstart⟩ := h
  obtain ⟨ready', op', op₁', op₂', op₃', hbind', hstart'⟩ := h'
  obtain rfl := bind_determined memory folder packs _ _ _ _ _ _ hbind hbind'
  exact startDecoder_determined memory ready.decoder password _ _ _ _ _ _ hstart hstart'

theorem gave_left {packs : PackedSource} {password : Option String} {folder : FolderLayout}
    {seen : List UInt8} {reader : FolderReader (List UInt8)}
    (h : (checking memory).Gave packs password folder seen reader) :
    ∃ start, Started memory packs password folder start ∧ start.left = seen ++ reader.left := by
  induction h with
  | @start ready reader op op₁ op₂ op₃ hbind hstart =>
    exact ⟨reader, ⟨ready, op, op₁, op₂, op₃, hbind, hstart⟩, rfl⟩
  | @read seen bytes reader reader' n outside outside' hgave hread ih =>
    obtain ⟨start, hstarted, hleft⟩ := ih
    obtain ⟨after, ⟨more, hrun, hmore⟩ | ⟨e, hrun, -⟩⟩ := reader.read_left memory n
    · cases hrun.symm.trans hread
      exact ⟨start, hstarted, by rw [hleft, hmore, List.append_assoc]⟩
    · cases hrun.symm.trans hread
  | @failed seen reader reader' n outside outside' e hgave hread ih =>
    obtain ⟨start, hstarted, hleft⟩ := ih
    obtain ⟨after, ⟨more, hrun, -⟩ | ⟨e, hrun, hmore⟩⟩ := reader.read_left memory n
    · cases hrun.symm.trans hread
    · cases hrun.symm.trans hread
      exact ⟨start, hstarted, by rw [hleft, hmore]⟩

theorem checking_decodes (packs : PackedSource) (password : Option String) :
    ∃ output, (checking memory).Decodes packs password output := by
  have houtput : ∀ folder, ∃ bytes, ∀ start, Started memory packs password folder start →
      start.left = bytes := by
    intro folder
    by_cases h : ∃ start, Started memory packs password folder start
    · obtain ⟨start, hstart⟩ := h
      exact ⟨start.left, fun other hother => by rw [hstart.unique memory hother]⟩
    · exact ⟨[], fun start hstart => absurd ⟨start, hstart⟩ h⟩
  choose output houtput using houtput
  refine ⟨output, fun folder seen reader hgave => ?_⟩
  obtain ⟨start, hstarted, hleft⟩ := gave_left memory hgave
  rw [← houtput folder start hstarted, hleft]
  exact List.prefix_append _ _

end

end R7z
