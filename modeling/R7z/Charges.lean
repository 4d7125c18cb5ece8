import R7z.Decode.Eager
import R7z.Open
import R7z.Session

/-! One budget, shared by everything that is done with it: opening an archive, reading its entries,
failing and going on. The counters never leave their limits, and no byte is handed on that was not
charged. -/

namespace R7z

open Effect Effect.Machine

section
variable {ω δ κ : Type} {limits : ResourceLimits}

/-! Opening an archive -/

structure Prudent (limits : ResourceLimits) (op op' : Operation ω) : Prop where
  sound : op.Sound limits → op'.Sound limits
  handed : op'.history.handed ≤ op.history.handed
  charged : op'.history.charged = op.history.charged

instance : Std.Refl (Prudent (ω := ω) limits) := ⟨fun _ => ⟨id, le_rfl, rfl⟩⟩

instance : IsTrans (Operation ω) (Prudent limits) where
  trans _ _ _ h h' := ⟨h'.sound ∘ h.sound, h'.handed.trans h.handed, h'.charged.trans h.charged⟩

theorem Backed.prudent {eager : Bool} {reader : FolderReader δ} {op op' : Operation ω} {more : ℕ}
    (h : Backed limits eager reader op more) (hprudent : Prudent limits op op') :
    Backed limits eager reader op' more where
  sound := hprudent.sound h.sound
  credit := by
    obtain ⟨credit, hholds, hcharged⟩ := h.credit
    have hhanded := hprudent.handed
    rw [← hprudent.charged] at hcharged
    exact ⟨credit, hholds, by omega⟩

theorem Operation.Solvent.prudent {op op' : Operation ω} (h : op.Solvent limits)
    (hprudent : Prudent limits op op') : op'.Solvent limits where
  sound := hprudent.sound h.sound
  handed := by
    rw [hprudent.charged]
    exact hprudent.handed.trans h.handed

theorem prudent_of_steady {α : Type} {m : OperationM ω α} (h : Moves Steady m) :
    Moves (Prudent limits) m :=
  fun op => ⟨(h op).sound, (h op).handed.le, (h op).charged⟩

theorem note_prudent {f : History → History} (hhanded : ∀ history, (f history).handed ≤ history.handed)
    (hcharged : ∀ history, (f history).charged = history.charged)
    (hunderflow : ∀ history, (f history).underflow = history.underflow) :
    Moves (Prudent limits) (Operation.recordHistory f : OperationM ω Unit) :=
  fun _ => ⟨fun hop => hop.history (hcharged _) (hunderflow _), hhanded _, hcharged _⟩

theorem chargeMetadata_prudent (bytes : UInt64) :
    Moves (Prudent limits) (Operation.chargeMetadata bytes : OperationM ω Unit) := by
  intro op
  unfold Operation.chargeMetadata
  rcases onBudget_cases (fun b => b.chargeMetadata bytes) op with ⟨budget, hf, hrun⟩ | ⟨e, -, hrun⟩
  · rw [hrun]
    obtain ⟨hbudget, -, hle⟩ := OperationBudget.chargeMetadata_spec hf
    rw [hbudget]
    refine ⟨fun hop => ?_, le_rfl, rfl⟩
    exact ⟨hop.sameLimits, hop.kdfLimit, ⟨hle, hop.within.decoded, hop.within.kdf⟩, hop.counts,
      hop.underflow⟩
  · rw [hrun]
    exact Std.Refl.refl op

theorem metadataRemaining_prudent :
    Moves (Prudent limits) (Operation.metadataRemaining : OperationM ω UInt64) := by
  intro op
  refine ⟨fun hop => ?_, le_rfl, rfl⟩
  rw [metadataRemaining_run hop.within]
  exact hop

theorem mapMetadataError_moves {α : Type} {R : Operation ω → Operation ω → Prop} {m : OperationM ω α}
    (h : Moves R m) : Moves R (mapMetadataError m) := by
  intro op
  have hop := h op
  unfold mapMetadataError
  rcases hrun : m op with ⟨e | a, op'⟩
  · rw [hrun] at hop
    exact hop
  · rw [hrun] at hop
    exact hop

variable (env : Environment ω δ) (source : SourceReader ω)

theorem readToEnd_steady (limit : ℕ) : ∀ (turns : ℕ) (reader : CheckedReader δ) (output : List UInt8),
    Moves Steady (readToEnd env limit turns reader output)
  | 0, _, _ => Moves.fail _
  | turns + 1, reader, output => by
    unfold readToEnd
    refine Moves.ite (Moves.pure _) fun op => ?_
    have hnext : ∀ (reader : CheckedReader δ) (output : List UInt8) (outside : ω),
        Steady op (readToEnd env limit turns reader output { op with outside }).2 := by
      intro reader output outside
      have hop : Steady op { op with outside } := ⟨rfl, rfl, rfl, id, rfl, rfl⟩
      exact IsTrans.trans _ _ _ hop (readToEnd_steady limit turns reader output { op with outside })
    rcases reader.read env (min 8192 (limit - output.length)) op.outside with ⟨e | bytes, reader', outside⟩
    · cases e with
      | interrupted => exact hnext reader' output outside
      | _ => exact ⟨rfl, rfl, rfl, id, rfl, rfl⟩
    · dsimp only
      split
      · exact ⟨rfl, rfl, rfl, id, rfl, rfl⟩
      · exact hnext reader' _ outside

theorem readBoundedToVec_steady (readLimit : ℕ) (reader : FolderReader δ) :
    Moves Steady (reader.readBoundedToVec env readLimit) := by
  cases reader with
  | Stream reader => exact readToEnd_steady env readLimit _ _ _
  | Buffered bytes => exact Moves.pure _

theorem notePlanned_prudent (block : MetadataBlock) (size : ℕ) :
    Moves (Prudent limits) (Operation.recordHistory (notePlanned block size) : OperationM ω Unit) :=
  note_prudent (fun _ => le_rfl) (fun _ => rfl) fun _ => rfl

theorem noteHeld_prudent (block : MetadataBlock) (size : ℕ) :
    Moves (Prudent limits) (Operation.recordHistory (noteHeld block size) : OperationM ω Unit) :=
  note_prudent (fun _ => le_rfl) (fun _ => rfl) fun _ => rfl

theorem collect_prudent (block : MetadataBlock) (ready : ReadyFolder δ) (password : Option String)
    (limit : UInt64) : Moves (Prudent limits) (ready.collect env block password limit) :=
  Moves.ite (Moves.fail _) <| Moves.ite (Moves.fail _) <|
    (notePlanned_prudent _ _).bind fun _ =>
    (prudent_of_steady (startDecoder_steady env _ _)).bind fun _ =>
    (prudent_of_steady (readBoundedToVec_steady env _ _)).bind fun _ =>
    (noteHeld_prudent _ _).bind fun _ => (Moves.ofExcept _).bind fun _ => Moves.pure _

theorem buffer_steady (bytes : List UInt8) : Moves Steady (source.buffer bytes) :=
  (external_steady _).bind fun _ => Moves.pure _

theorem decodeFolders_prudent (packs : PackedSource) (password : Option String) (limit : UInt64) :
    ∀ (turns : ℕ) (plans : FolderPlans) (collector : ExternalFolderCollector),
      Moves (Prudent limits) (decodeFolders env source packs password limit turns plans collector)
  | 0, _, _ => Moves.pure _
  | turns + 1, plans, collector => by
    unfold decodeFolders
    split
    · exact Moves.pure _
    · exact Moves.fail _
    · exact (prudent_of_steady (bind_steady env _ packs)).bind fun _ =>
        (collect_prudent env _ _ password limit).bind fun _ =>
        (prudent_of_steady (buffer_steady source _)).bind fun _ => (Moves.ofExcept _).bind fun _ =>
        decodeFolders_prudent packs password limit turns _ _

theorem decodeAdditional_prudent (baseOffset : UInt64) (streams : StreamInfo) (password : Option String) :
    Moves (Prudent limits) (decodeAdditionalFolderData env source baseOffset streams password) := by
  have hplan : Moves (Prudent limits) (ExternalFolderPlan.new streams : OperationM ω _) :=
    (Moves.ofExcept _).bind fun _ => metadataRemaining_prudent.bind fun _ =>
      (mapMetadataError_moves (Moves.ofExcept _)).bind fun _ => (Moves.ofExcept _).bind fun _ =>
      (chargeMetadata_prudent _).bind fun _ => (chargeMetadata_prudent _).bind fun _ => Moves.pure _
  refine hplan.bind fun plan => (Moves.ofExcept _).bind fun packs => ?_
  exact (notePlanned_prudent _ _).bind fun _ => (noteHeld_prudent _ _).bind fun _ =>
    (decodeFolders_prudent env source packs password _ _ _ _).bind fun _ =>
      Moves.ite (Moves.pure _) (Moves.fail _)

theorem verifyPackCrcs_steady (dataStart : UInt64) (digests : List (Option UInt32)) :
    ∀ (index : ℕ) (packOffset : UInt64) (packSizes : List UInt64),
      Moves Steady (verifyPackCrcs source dataStart digests index packOffset packSizes)
  | _, _, [] => Moves.pure _
  | index, packOffset, packSize :: packSizes => by
    unfold verifyPackCrcs
    refine (Moves.ofExcept _).bind fun _ => (external_steady _).bind fun _ =>
      (Moves.ofExcept _).bind fun _ => ?_
    have hnext : ∀ (x : Unit), Moves Steady (do
        let packOffset ← ofExcept (checkedAddPosition packOffset packSize)
        verifyPackCrcs source dataStart digests (index + 1) packOffset packSizes) :=
      fun _ => (Moves.ofExcept _).bind fun _ => verifyPackCrcs_steady dataStart digests _ _ _
    split
    · exact hnext ()
    · exact (external_steady _).bind fun _ => Moves.ite (hnext ()) ((Moves.fail _).bind hnext)

theorem parseHeader_prudent (baseOffset : UInt64) (bytes : Wire.Slice) (password : Option String) :
    Moves (Prudent limits) (parseHeaderWithExternalData env source baseOffset bytes password) := by
  refine (chargeMetadata_prudent _).bind fun _ => (Moves.ofExcept _).bind fun resolution => ?_
  cases resolution with
  | complete header =>
    refine (prudent_of_steady ?_).bind fun _ => Moves.pure _
    refine (Moves.ofExcept _).bind fun streams => ?_
    cases streams.bind StreamInfo.packInfo with
    | none => exact Moves.pure _
    | some packInfo => exact (Moves.ofExcept _).bind fun _ => verifyPackCrcs_steady source _ _ _ _ _
  | requiresExternalFolders pending =>
    exact (decodeAdditional_prudent env source baseOffset _ password).bind fun _ => Moves.ofExcept _

theorem openArchive_prudent (password : Option String) :
    Moves (Prudent limits) (OpenedArchive.fromSourceWithBudget env source password) := by
  have hrange : ∀ (block : MetadataBlock) (range : UInt64 × UInt64) (limit : UInt64),
      Moves (Prudent limits) (source.readRangeToVec block range limit) := by
    intro block range limit
    exact Moves.ite (Moves.fail _) <| (notePlanned_prudent _ _).bind fun _ =>
      (prudent_of_steady (external_steady _)).bind fun _ => (noteHeld_prudent _ _).bind fun _ =>
      Moves.pure _
  refine Moves.get.bind fun op => (prudent_of_steady (external_steady _)).bind fun _ =>
    (prudent_of_steady (external_steady _)).bind fun _ => Moves.ite (Moves.fail _) <|
    (Moves.ofExcept _).bind fun _ => (Moves.ofExcept _).bind fun _ => (Moves.ofExcept _).bind fun _ =>
    (hrange _ _ _).bind fun _ => Moves.ite (Moves.fail _) <|
    (prudent_of_steady (buffer_steady source _)).bind fun _ => (Moves.ofExcept _).bind fun next => ?_
  cases next with
  | Plain => exact (parseHeader_prudent env source _ _ password).bind fun _ => Moves.pure _
  | Encoded encoded =>
    refine (chargeMetadata_prudent _).bind fun _ => Moves.bind ?_ fun _ => Moves.pure _
    exact metadataRemaining_prudent.bind fun _ =>
      (mapMetadataError_moves (Moves.ofExcept _)).bind fun _ => (Moves.ofExcept _).bind fun _ =>
      metadataRemaining_prudent.bind fun _ =>
      (mapMetadataError_moves ((prudent_of_steady (bind_steady env _ _)).bind fun _ =>
        collect_prudent env _ _ password _)).bind fun _ =>
      (prudent_of_steady (buffer_steady source _)).bind fun _ =>
      parseHeader_prudent env source _ _ password

/-! A folder -/

def ActiveFolder.Backed (limits : ResourceLimits) (folder : ActiveFolder δ) (op : Operation ω) : Prop :=
  R7z.Backed limits folder.budgetedEagerly folder.reader op 0

theorem withEager_covered {α : Type} {size : UInt64} {start : OperationM ω α} (hstart : Moves Steady start)
    {op : Operation ω} (hop : op.Solvent limits) :
    Outcome (fun a op' => op'.Sound limits ∧ (∃ middle, start op = (.ok a, middle)) ∧
        op'.history.handed + size.toNat ≤ op'.history.charged)
      (fun _ op' => op'.Solvent limits) (Operation.withEagerDecodedOutput size start op) := by
  unfold Operation.withEagerDecodedOutput
  refine Meets.get_bind (P := fun op' => op' = op) (fun s hs => ?_) op rfl
  cases hs
  cases hnext : op.budget.nextDecoded size with
  | error e => exact hop
  | ok next =>
    have hsteady := hstart op
    rcases hrun : start op with ⟨result, middle⟩
    rw [hrun] at hsteady
    have hmiddle : middle.Sound limits := hsteady.sound hop.sound
    obtain ⟨hlimit, hcounts⟩ := OperationBudget.nextDecoded_spec hop.sound.counts hnext
    -- the count goes to a budget that only the monitor and the key counter of have changed
    have hcounted : ({ middle with
        budget := { middle.budget with decoded := next }
        history := Operation.noteCharge size middle.history } : Operation ω).Sound limits := by
      refine ⟨hmiddle.sameLimits, hmiddle.kdfLimit, ⟨hmiddle.within.metadata, ?_, hmiddle.within.kdf⟩,
        ?_, hmiddle.underflow⟩
      · dsimp only
        rw [hsteady.limits]
        exact hlimit
      · unfold OperationBudget.Counts at hcounts ⊢
        dsimp only [Operation.noteCharge]
        rw [hsteady.limits, hsteady.charged]
        exact hcounts
    have hhanded : middle.history.handed + size.toNat ≤ middle.history.charged + size.toNat := by
      rw [hsteady.handed, hsteady.charged]
      exact Nat.add_le_add_right hop.handed _
    have hofExcept : (ofExcept (.ok next) : OperationM ω UInt64) op = (.ok next, op) := rfl
    rw [Machine.bind_of_ok hofExcept]
    have hattempt : (attempt start : OperationM ω (Except R7zError α)) op = (.ok result, middle) := by
      unfold Machine.attempt
      rw [hrun]
    rw [Machine.bind_of_ok hattempt]
    cases result with
    | ok a => exact ⟨hcounted, ⟨middle, rfl⟩, hhanded⟩
    | error e =>
      dsimp only
      split
      · exact hop.steady hsteady
      · exact ⟨hcounted, (Nat.le_add_right _ size.toNat).trans hhanded⟩

theorem start_backed {ready : ReadyFolder δ} (hchained : ready.decoder.Chained)
    (password : Option String) : Meets (fun op => op.Solvent limits) (ready.start env password)
      (fun folder op => folder.Backed limits op) fun _ op => op.Solvent limits := by
  intro op hop
  unfold ReadyFolder.start
  dsimp only
  cases heager : ready.decoder.eagerOutputSize with
  | none =>
    refine Meets.bind (P := fun op => op.Solvent limits) (Q := fun _ op => op.Solvent limits)
      ((startReady_steady env ready password).meets fun _ _ hsteady hs => hs.steady hsteady)
      (fun reader => ?_) op hop
    exact fun op hs => ⟨hs.sound, 0, fun h => (by cases h), hs.handed⟩
  | some size =>
    have hout := @withEager_covered ω limits _ size _ (startReady_steady env ready password) op hop
    dsimp only
    rw [Machine.bind_apply]
    rcases hrun : Operation.withEagerDecodedOutput size (ready.startDecoder env password) op with
      ⟨e | reader, op'⟩
    · rw [hrun] at hout
      exact hout
    · rw [hrun] at hout
      obtain ⟨hsound, ⟨middle, hstart⟩, hcharged⟩ := hout
      obtain ⟨reader', op₁, hdecoder, hstart⟩ := Machine.bind_eq_ok.mp hstart
      obtain ⟨_, op₂, -, hstart⟩ := Machine.bind_eq_ok.mp hstart
      have hreader : reader' = reader := Except.ok.inj (Prod.mk.inj hstart).1
      rw [hreader] at hdecoder
      exact ⟨hsound, size.toNat, fun _ => start_holds env hchained heager hdecoder, hcharged⟩

theorem Substreams.next_size {streams rest : Substreams} {stream : Substream}
    (h : streams.next = some (stream, rest)) : stream.stop - stream.start < 2 ^ 64 := by
  unfold Substreams.next at h
  split at h
  · cases h
  split at h
  · cases h
  · rename_i size _
    cases h
    have hsize := size.toNat_lt
    dsimp only
    omega

theorem readStream_backed (folder : ActiveFolder δ)
    {consume : Reading ω δ → Except CallbackError κ × Reading ω δ}
    (hconsume : ∀ s, Covered limits folder.budgetedEagerly 0 s →
      Covered limits folder.budgetedEagerly 0 (consume s).2) :
    Meets (fun op => folder.Backed limits op) (folder.readStream env consume)
      (fun r op => r.1.Backed limits op) fun _ op => op.Solvent limits := by
  intro op hop
  unfold ActiveFolder.readStream
  cases hnext : folder.streams.next with
  | none => exact hop.solvent
  | some next =>
    obtain ⟨stream, streams⟩ := next
    dsimp only
    have hopen : Covered limits folder.budgetedEagerly 0
        ({ content := folder.openStream stream, op } : Reading ω δ) :=
      ⟨rfl, Substreams.next_size hnext, hop⟩
    have hconsumed := hconsume _ hopen
    rcases hconsume : consume { content := folder.openStream stream, op } with ⟨consumed, s⟩
    rw [hconsume] at hconsumed
    have hs : Covered limits folder.budgetedEagerly 0 s := hconsumed
    dsimp only
    split
    · exact hs.backed.solvent
    cases consumed with
    | error e => exact hs.backed.solvent
    | ok result =>
      dsimp only
      have hdrained := drain_covered env env.copyTurns s hs
      rcases hdrain : SubstreamReader.drain env env.copyTurns s with ⟨drained, s'⟩
      rw [hdrain] at hdrained
      have hs' : Covered limits folder.budgetedEagerly 0 s' := by
        cases drained with
        | error e => exact hdrained
        | ok _ => exact hdrained
      dsimp only
      split
      · exact hs'.backed.solvent
      cases drained with
      | error e => exact hs'.backed.solvent
      | ok _ =>
        dsimp only
        split
        · exact hs'.backed.solvent
        split
        · exact hs'.backed.solvent
        · exact hs'.backed

theorem skipStreams_backed : ∀ (n : ℕ) (folder : ActiveFolder δ),
    Meets (fun op => folder.Backed limits op) (ActiveFolder.skipStreams env n folder)
      (fun folder op => folder.Backed limits op) fun _ op => op.Solvent limits
  | 0, _ => fun _ hs => hs
  | n + 1, folder => by
    have hskip : Meets (fun op => folder.Backed limits op) (folder.skipStream env)
        (fun folder op => folder.Backed limits op) fun _ op => op.Solvent limits :=
      (readStream_backed env folder fun _ hs => hs).bind fun _ => Meets.pure fun _ hs => hs
    exact hskip.bind fun _ => skipStreams_backed n _

theorem skipTo_backed (folder : ActiveFolder δ) (position : ℕ) :
    Meets (fun op => folder.Backed limits op) (folder.skipTo env position)
      (fun folder op => folder.Backed limits op) fun _ op => op.Solvent limits := by
  intro op hop
  exact Outcome.ite (fun _ => skipStreams_backed env _ folder op hop) fun _ => hop.solvent

theorem readExtra_steady (folder : ActiveFolder δ) : Moves Steady (folder.readExtra env) := by
  intro op
  have hsteady := readFolder_steady env 1 folder.reader op
  unfold ActiveFolder.readExtra
  rcases hread : readFolder env 1 folder.reader op with ⟨e | bytes, reader', op'⟩
  · rw [hread] at hsteady
    exact hsteady
  · rw [hread] at hsteady
    exact hsteady

theorem finish_solvent (folder : ActiveFolder δ) (mode : CompletionMode) :
    Meets (fun op => folder.Backed limits op) (folder.finish env mode)
      (fun _ op => op.Solvent limits) fun _ op => op.Solvent limits := by
  intro op hop
  refine Outcome.ite (fun _ => hop.solvent) fun _ => ?_
  refine Meets.bind (skipStreams_backed env _ folder) (fun skipped => ?_) op hop
  intro op hop
  refine Outcome.ite (fun _ => hop.solvent) fun _ => ?_
  refine Meets.bind (P := fun op => op.Solvent limits) (Q := fun _ op => op.Solvent limits)
    ((readExtra_steady env skipped).meets fun _ _ hsteady hs => hs.steady hsteady) (fun extra => ?_)
    op hop.solvent
  intro op hop
  exact Outcome.ite (fun _ => hop) fun _ => Meets.bind
    (Meets.ofExcept (fun _ _ _ hs => hs) fun _ _ _ hs => hs) (fun _ _ hs => hs) op hop

/-! The entries of an archive -/

def Holding (limits : ResourceLimits) (active : Option (ℕ × ActiveFolder δ))
    (decoder : EntryDecoder ω δ) : Prop :=
  match active with
  | none => decoder.op.Solvent limits
  | some (_, folder) => folder.Backed limits decoder.op

def EntryDecoder.Balanced (limits : ResourceLimits) (decoder : EntryDecoder ω δ) : Prop :=
  Holding limits decoder.current decoder

theorem Holding.solvent {active : Option (ℕ × ActiveFolder δ)} {decoder : EntryDecoder ω δ}
    (h : Holding limits active decoder) : decoder.op.Solvent limits := by
  cases active with
  | none => exact h
  | some active => exact R7z.Backed.solvent h

theorem Holding.prudent {active : Option (ℕ × ActiveFolder δ)} {decoder : EntryDecoder ω δ}
    {op : Operation ω} (h : Holding limits active decoder) (hprudent : Prudent limits decoder.op op) :
    Holding limits active { decoder with op } := by
  cases active with
  | none => exact Operation.Solvent.prudent h hprudent
  | some active => exact R7z.Backed.prudent h hprudent

theorem onOperation_meets {α : Type} {m : OperationM ω α} {P : Operation ω → Prop}
    {Q : α → Operation ω → Prop} {E : R7zError → Operation ω → Prop} (hm : Meets P m Q E) :
    Meets (fun decoder : EntryDecoder ω δ => P decoder.op) (EntryDecoder.onOperation m)
      (fun a decoder => Q a decoder.op) fun e decoder => E e decoder.op :=
  Meets.focus hm (fun _ hs => hs) (fun _ _ _ _ ht => ht) fun _ _ _ _ ht => ht

namespace EntryDecoder

theorem complete_solvent (active : Option (ℕ × ActiveFolder δ)) :
    Meets (Holding limits active) (complete env active)
      (fun _ decoder => decoder.op.Solvent limits) fun _ decoder => decoder.op.Solvent limits := by
  cases active with
  | none => exact fun _ hs => hs
  | some active =>
    obtain ⟨index, folder⟩ := active
    refine Meets.get_bind fun decoder hs => ?_
    refine Meets.bind (Meets.attempt (onOperation_meets (finish_solvent env folder decoder.mode)))
      (fun result => ?_) decoder hs
    cases result with
    | error e => exact fun _ hs => hs
    | ok verification => exact fun _ hs => hs

theorem openFolder_backed (previous : Option (ℕ × ActiveFolder δ)) (location : StreamLocation) :
    Meets (Holding limits previous) (openFolder env previous location)
      (fun folder decoder => folder.Backed limits decoder.op) fun _ decoder =>
        decoder.op.Solvent limits := by
  refine (complete_solvent env previous).bind fun _ => Meets.get_bind fun decoder hs => ?_
  refine onOperation_meets (P := fun op => op.Solvent limits) ?_ decoder hs
  refine Meets.bind (Q := fun ready op => ready.decoder.Chained ∧ op.Solvent limits) ?_ fun ready => ?_
  · refine .of_outcomes (fun op ready op' hop hrun => ?_) fun op e op' hop hrun => ?_
    · exact ⟨(FolderLayout.bind_chained env hrun).1, hop.steady ((bind_steady env _ _).ok hrun)⟩
    · exact hop.steady ((bind_steady env _ _).error hrun)
  · exact fun op ⟨hchained, hop⟩ => start_backed env hchained _ op hop

theorem selectFolder_backed (previous : Option (ℕ × ActiveFolder δ)) (location : StreamLocation) :
    Meets (Holding limits previous) (selectFolder env previous location)
      (fun folder decoder => folder.Backed limits decoder.op) fun _ decoder =>
        decoder.op.Solvent limits := by
  cases previous with
  | none => exact openFolder_backed env none location
  | some active =>
    obtain ⟨index, folder⟩ := active
    intro decoder hs
    exact Outcome.ite (fun _ => hs) fun _ => openFolder_backed env _ location decoder hs

theorem balanced_of_closed {decoder : EntryDecoder ω δ}
    (h : decoder.op.Solvent limits ∧ decoder.current = none) : Balanced limits decoder := by
  unfold Balanced Holding
  rw [h.2]
  exact h.1

theorem complete_keeps (active : Option (ℕ × ActiveFolder δ)) :
    Keeps EntryDecoder.current (complete (ω := ω) env active) := by
  cases active with
  | none => exact Keeps.pure ()
  | some active =>
    refine Keeps.get.bind fun decoder => Keeps.bind (fun _ => rfl) fun result => ?_
    cases result with
    | ok verification => exact fun _ => rfl
    | error e => exact fun _ => rfl

theorem selectFolder_keeps (previous : Option (ℕ × ActiveFolder δ)) (location : StreamLocation) :
    Keeps EntryDecoder.current (selectFolder (ω := ω) env previous location) := by
  have hopen : ∀ previous, Keeps EntryDecoder.current (openFolder (ω := ω) env previous location) :=
    fun previous => (complete_keeps env previous).bind fun _ => Keeps.get.bind fun _ => fun _ => rfl
  cases previous with
  | none => exact hopen none
  | some active =>
    intro decoder
    unfold selectFolder
    dsimp only
    split
    · rfl
    · exact hopen _ decoder

theorem readStream_balanced (entry : ℕ) (location : StreamLocation) (callback : Consumer κ) :
    Meets (Balanced limits) (readStream env entry location callback)
      (fun _ => Balanced limits) fun _ => Balanced limits := by
  refine Meets.get_bind fun decoder hs => ?_
  have hclose : Meets (fun d : EntryDecoder ω δ => d = decoder) (setCurrent none)
      (fun _ d => Holding limits decoder.current d ∧ d.current = none) fun _ => Balanced limits := by
    intro d hd
    subst hd
    exact ⟨hs, rfl⟩
  refine Meets.bind hclose (fun _ => ?_) decoder rfl
  have hselect := (@selectFolder_backed ω δ limits env decoder.current location).and
    ((selectFolder_keeps env decoder.current location).meets fun current => current = none)
  refine Meets.bind (Meets.mono hselect (fun _ hs => hs) (fun _ _ hs => hs) fun _ _ hs => balanced_of_closed hs)
    fun active => ?_
  have hskip : Meets (fun op => active.Backed limits op) (do
        let active ← active.skipTo env location.streamIndex
        active.readStream env (callback.invoke env entry))
      (fun r op => r.1.Backed limits op) fun _ op => op.Solvent limits :=
    (skipTo_backed env active _).bind fun skipped =>
      readStream_backed env skipped fun s hs => invoke_covered env callback entry s hs
  have hkeeps : Keeps EntryDecoder.current (onOperation (δ := δ) (do
        let active ← active.skipTo env location.streamIndex
        active.readStream env (callback.invoke env entry))) := fun _ => rfl
  refine Meets.bind (Meets.mono ((onOperation_meets hskip).and
    (hkeeps.meets fun current => current = none)) (fun _ hs => hs) (fun _ _ hs => hs)
    fun _ _ hs => balanced_of_closed hs) fun r => ?_
  exact fun d hs => hs.1

theorem runEmpty_history (callback : Consumer κ) : ∀ history : History,
    (callback.runEmpty history).2.handed ≤ history.handed ∧
      (callback.runEmpty history).2.charged = history.charged ∧
      (callback.runEmpty history).2.underflow = history.underflow := by
  induction callback with
  | done result => exact fun history => ⟨le_rfl, rfl, rfl⟩
  | read size next ih =>
    intro history
    obtain ⟨hhanded, hcharged, hunderflow⟩ := ih (.ok []) (noteHanded size [] history)
    refine ⟨hhanded.trans (handed_noteHanded size [] history), hcharged.trans ?_, hunderflow.trans ?_⟩
    · unfold noteHanded
      split <;> rfl
    · unfold noteHanded
      split <;> rfl

theorem onOperation_balanced {α : Type} {m : OperationM ω α} (hm : Moves (Prudent limits) m) :
    Meets (Balanced (δ := δ) limits) (onOperation m) (fun _ => Balanced limits)
      fun _ => Balanced limits := by
  intro decoder hs
  have hprudent := hm decoder.op
  unfold onOperation Machine.focus
  rcases hrun : m decoder.op with ⟨e | a, op⟩
  · rw [hrun] at hprudent
    exact hs.prudent hprudent
  · rw [hrun] at hprudent
    exact hs.prudent hprudent

theorem readEmpty_balanced (entry : ℕ) (callback : Consumer κ) :
    Meets (Balanced (ω := ω) (δ := δ) limits) (readEmpty entry callback)
      (fun _ => Balanced limits) fun _ => Balanced limits := by
  refine onOperation_balanced fun op => ?_
  obtain ⟨hhanded, hcharged, hunderflow⟩ := runEmpty_history callback (noteInvoked entry op.history)
  have hprudent : Prudent limits op
      { op with history := (callback.runEmpty (noteInvoked entry op.history)).2 } :=
    ⟨fun hop => hop.history hcharged hunderflow,
      hhanded.trans (handed_noteInvoked entry op.history).le, hcharged⟩
  exact hprudent

theorem read_balanced (entry : ReadableEntry) (callback : Consumer κ) :
    Meets (Balanced limits) (read env entry callback) (fun _ => Balanced limits)
      fun _ => Balanced limits := by
  refine Meets.onError ?_
  refine Meets.bind (onOperation_balanced (prudent_of_steady (check_steady env))) fun _ => ?_
  cases entry.content with
  | Empty => exact readEmpty_balanced entry.index callback
  | Stream location => exact readStream_balanced env entry.index location callback

theorem finish_balanced : Meets (Balanced limits) (finish env) (fun _ => Balanced limits)
    fun _ => Balanced limits := by
  refine Meets.get_bind fun decoder hs => ?_
  have hcomplete := (@complete_solvent ω δ limits env decoder.current).and
    ((complete_keeps env decoder.current).meets fun current => current = none)
  refine Meets.bind (Meets.mono hcomplete (fun _ hs => hs) (fun _ _ hs => balanced_of_closed hs)
    fun _ _ hs => balanced_of_closed hs) (fun _ => ?_) { decoder with current := none } ⟨hs, rfl⟩
  exact (onOperation_balanced (prudent_of_steady (check_steady env))).bind fun _ =>
    Meets.get_bind fun d hs => hs

end EntryDecoder

/-! Runs -/

/-- What is done with one budget: opening an archive, planning a folder, reading an entry, leaving a
folder, and charges of any other kind. -/
inductive BudgetCall (ω κ : Type) where
  | openArchive (source : SourceReader ω) (password : Option String)
  | plan (folder : FolderLayout)
  | read (entry : ReadableEntry) (callback : Consumer κ)
  | finish
  | chargeMetadata (bytes : UInt64)
  | chargeDecoded (bytes : UInt64)
  | chargeKdfCycles (cycles : UInt64)

/-- The call; its result is of no account here. -/
def BudgetCall.run : BudgetCall ω κ → EntryDecoder.DecoderM ω δ Unit
  | .openArchive source password => do
    let _ ← EntryDecoder.onOperation (OpenedArchive.fromSourceWithBudget env source password)
    pure ()
  | .plan folder => do
    let decoder ← get
    let _ ← EntryDecoder.onOperation (folder.bind env decoder.source)
    pure ()
  | .read entry callback => do
    let _ ← EntryDecoder.read env entry callback
    pure ()
  | .finish => do
    let _ ← EntryDecoder.finish env
    pure ()
  | .chargeMetadata bytes => EntryDecoder.onOperation (Operation.chargeMetadata bytes)
  | .chargeDecoded bytes => EntryDecoder.onOperation (Operation.chargeDecoded bytes)
  | .chargeKdfCycles cycles => EntryDecoder.onOperation (Operation.chargeKdfCycles cycles)

theorem chargeDecoded_balanced (bytes : UInt64) :
    Meets (EntryDecoder.Balanced (ω := ω) (δ := δ) limits)
      (EntryDecoder.onOperation (Operation.chargeDecoded bytes))
      (fun _ => EntryDecoder.Balanced limits) fun _ => EntryDecoder.Balanced limits := by
  intro decoder hs
  unfold EntryDecoder.onOperation Machine.focus
  rcases @chargeDecoded_sound ω limits bytes decoder.op hs.solvent.sound with
    ⟨op', hrun, hsound, htotal, hhanded⟩ | ⟨e, hrun⟩
  · rw [hrun]
    show Holding limits decoder.current { decoder with op := op' }
    unfold EntryDecoder.Balanced Holding at hs
    unfold Holding
    cases hcurrent : decoder.current with
    | none =>
      rw [hcurrent] at hs
      have hcharged := Operation.Solvent.handed hs
      exact ⟨hsound, by rw [hhanded, htotal]; omega⟩
    | some active =>
      rw [hcurrent] at hs
      obtain ⟨credit, hholds, hcharged⟩ := R7z.Backed.credit hs
      exact ⟨hsound, credit, hholds, by rw [hhanded, htotal]; omega⟩
  · rw [hrun]
    exact hs

theorem BudgetCall.run_balanced (call : BudgetCall ω κ) : Meets (EntryDecoder.Balanced limits)
    (call.run env) (fun _ => EntryDecoder.Balanced limits) fun _ => EntryDecoder.Balanced limits := by
  cases call with
  | openArchive source password =>
    exact (EntryDecoder.onOperation_balanced (openArchive_prudent env source password)).bind
      fun _ => Meets.pure fun _ hs => hs
  | plan folder =>
    refine Meets.get_bind fun decoder hs => ?_
    refine Meets.bind (EntryDecoder.onOperation_balanced (prudent_of_steady (bind_steady env folder _)))
      (fun _ => ?_) decoder hs
    exact fun _ hs => hs
  | read entry callback =>
    exact (EntryDecoder.read_balanced env entry callback).bind fun _ => Meets.pure fun _ hs => hs
  | finish => exact (EntryDecoder.finish_balanced env).bind fun _ => Meets.pure fun _ hs => hs
  | chargeMetadata bytes => exact EntryDecoder.onOperation_balanced (chargeMetadata_prudent bytes)
  | chargeDecoded bytes => exact chargeDecoded_balanced bytes
  | chargeKdfCycles cycles =>
    exact EntryDecoder.onOperation_balanced (prudent_of_steady (chargeKdf_steady cycles))

/-- The counters of an operation with these limits: none is above its limit, and none was when its limit
was last compared with it; that of decoded output says what was charged, as far as it can count; and no
more was handed to callbacks. -/
structure WithinLimits (limits : ResourceLimits) (op : Operation ω) : Prop where
  metadata : op.budget.metadata ≤ limits.maxMetadataBytes
  decoded : ∀ limit, limits.maxTotalDecodedBytes = some limit → op.budget.decoded ≤ limit
  kdf : ∀ limit, limits.maxTotalKdfCycles = some limit → op.budget.kdf.used ≤ limit
  underflow : op.history.underflow = false
  charged : op.budget.decoded.toNat = match limits.maxTotalDecodedBytes with
    | none => min op.history.charged (2 ^ 64 - 1)
    | some _ => op.history.charged
  handed : op.history.handed ≤ op.history.charged

/-- A charge that is refused changes nothing, also when it is made in advance. -/
structure RefusalsKeep (op : Operation ω) : Prop where
  metadata : ∀ bytes e op', Operation.chargeMetadata bytes op = (.error e, op') → op' = op
  decoded : ∀ bytes e op', Operation.chargeDecoded bytes op = (.error e, op') → op' = op
  kdf : ∀ cycles e op', Operation.chargeKdfCycles cycles op = (.error e, op') → op' = op
  eager : ∀ bytes (start : OperationM ω Unit) e, op.budget.nextDecoded bytes = .error e →
    Operation.withEagerDecodedOutput bytes start op = (.error e, op)

theorem Operation.Solvent.withinLimits {op : Operation ω} (h : op.Solvent limits) :
    WithinLimits limits op where
  metadata := by
    rw [← h.sound.sameLimits]
    exact h.sound.within.metadata
  decoded := by
    rw [← h.sound.sameLimits]
    exact h.sound.within.decoded
  kdf := by
    rw [← h.sound.kdfLimit]
    exact h.sound.within.kdf
  underflow := h.sound.underflow
  charged := by
    have hcounts := h.sound.counts
    unfold OperationBudget.Counts at hcounts
    rw [h.sound.sameLimits] at hcounts
    cases hlimit : limits.maxTotalDecodedBytes with
    | none =>
      rw [hlimit] at hcounts
      exact hcounts
    | some limit =>
      rw [hlimit] at hcounts
      exact hcounts
  handed := h.handed

theorem refusalsKeep (op : Operation ω) : RefusalsKeep op where
  metadata := by
    intro bytes e op' h
    unfold Operation.chargeMetadata at h
    rcases onBudget_cases (fun b => b.chargeMetadata bytes) op with ⟨_, -, hrun⟩ | ⟨e', -, hrun⟩
    · rw [hrun] at h
      cases h
    · rw [hrun] at h
      exact (Prod.mk.inj h).2.symm
  decoded := by
    intro bytes e op' h
    unfold Operation.chargeDecoded at h
    rcases onBudget_cases (fun b => b.chargeDecoded bytes) op with ⟨_, -, hrun⟩ | ⟨e', -, hrun⟩
    · rw [Machine.bind_of_ok hrun] at h
      cases h
    · rw [Machine.bind_of_error hrun] at h
      exact (Prod.mk.inj h).2.symm
  kdf := by
    intro cycles e op' h
    unfold Operation.chargeKdfCycles at h
    rcases onBudget_cases (fun b => b.chargeKdfCycles cycles) op with ⟨_, -, hrun⟩ | ⟨e', -, hrun⟩
    · rw [hrun] at h
      cases h
    · rw [hrun] at h
      exact (Prod.mk.inj h).2.symm
  eager := by
    intro bytes start e h
    have hrun : (ofExcept (op.budget.nextDecoded bytes) : OperationM ω UInt64) op = (.error e, op) := by
      rw [h]
      rfl
    have hget : (get : OperationM ω (Operation ω)) op = (.ok op, op) := rfl
    exact (Machine.bind_of_ok hget).trans (Machine.bind_of_error hrun)

/-- In every run of calls on one budget, whatever fails on the way, the counters stay within their
limits, a charge that is refused changes nothing, and callbacks are handed no more than was charged. -/
theorem budget_respected (source : PackedSource) (mode : CompletionMode) (config : ArchiveReadConfig)
    (outside : ω) (calls : List (BudgetCall ω κ)) :
    WithinLimits config.limits
      (runAll (BudgetCall.run env) calls (EntryDecoder.new source mode config outside)).2.op ∧
    RefusalsKeep
      (runAll (BudgetCall.run env) calls (EntryDecoder.new source mode config outside)).2.op := by
  have hnew : (EntryDecoder.new (δ := δ) source mode config outside).Balanced config.limits :=
    ⟨Operation.new_sound config.limits config.hasControl outside, le_rfl⟩
  have hstep : ∀ (call : BudgetCall ω κ) (decoder : EntryDecoder ω δ),
      decoder.Balanced config.limits → (call.run env decoder).2.Balanced config.limits := by
    intro call decoder hs
    have hcall := BudgetCall.run_balanced env call decoder hs
    rcases hcase : call.run env decoder with ⟨e | a, decoder'⟩
    · rw [hcase] at hcall
      exact hcall
    · rw [hcase] at hcall
      exact hcall
  have hrun := runAll_preserves hstep calls hnew
  exact ⟨hrun.solvent.withinLimits, refusalsKeep _⟩

end

end R7z
