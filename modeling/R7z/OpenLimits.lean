import R7z.Charges

/-! What opening an archive puts into memory: every block is planned before it is read, and all blocks
together fit the limit for metadata. -/

namespace R7z

open Effect Effect.Machine

def blocksTotal (blocks : List (MetadataBlock × ℕ)) : ℕ := (blocks.map Prod.snd).sum

theorem blocksTotal_append (blocks more : List (MetadataBlock × ℕ)) :
    blocksTotal (blocks ++ more) = blocksTotal blocks + blocksTotal more := by
  unfold blocksTotal
  rw [List.map_append, List.sum_append]

theorem blocksTotal_single (block : MetadataBlock) (size : ℕ) : blocksTotal [(block, size)] = size :=
  Nat.add_zero size

/-- What was read of the planned blocks: all of them, or all but the last, of which nothing was read, or what is
not its size, but never more than one byte beyond. -/
inductive ReadAsPlanned : List (MetadataBlock × ℕ) → List (MetadataBlock × ℕ) → Prop where
  | all {blocks : List (MetadataBlock × ℕ)} : ReadAsPlanned blocks blocks
  | missing {blocks : List (MetadataBlock × ℕ)} (last : MetadataBlock × ℕ) : ReadAsPlanned (blocks ++ [last]) blocks
  | wrong {blocks : List (MetadataBlock × ℕ)} {block : MetadataBlock} {size read : ℕ} (h : read ≤ size + 1) :
      ReadAsPlanned (blocks ++ [(block, size)]) (blocks ++ [(block, read)])

theorem ReadAsPlanned.total_le {planned held : List (MetadataBlock × ℕ)} (h : ReadAsPlanned planned held) :
    blocksTotal held ≤ blocksTotal planned + 1 := by
  cases h with
  | all => exact Nat.le_succ _
  | missing last =>
    rw [blocksTotal_append]
    omega
  | wrong h =>
    rw [blocksTotal_append, blocksTotal_append, blocksTotal_single, blocksTotal_single]
    omega

theorem checkedAddPosition_eq_ok {a b c : UInt64} (h : checkedAddPosition a b = .ok c) :
    c.toNat = a.toNat + b.toNat := by
  unfold checkedAddPosition at h
  split at h
  · rename_i hlt
    cases h
    exact OperationBudget.toNat_add_of_lt hlt
  · cases h

section
variable {ω δ : Type} {limits : ResourceLimits}

structure Account (limits : ResourceLimits) (metadata : ℕ) (planned held : List (MetadataBlock × ℕ))
    (op : Operation ω) : Prop where
  sound : op.Sound limits
  metadata : op.budget.metadata.toNat = metadata
  planned : op.history.planned = planned
  held : op.history.held = held

structure Fit (limits : ResourceLimits) (op : Operation ω) : Prop where
  total : blocksTotal op.history.planned ≤ limits.maxMetadataBytes.toNat
  read : ReadAsPlanned op.history.planned op.history.held

variable {metadata : ℕ} {planned held blocks : List (MetadataBlock × ℕ)}

theorem Account.steady {op op' : Operation ω} (h : Account limits metadata planned held op)
    (hsteady : Steady op op') : Account limits metadata planned held op' where
  sound := hsteady.sound h.sound
  metadata := by
    rw [hsteady.metadata]
    exact h.metadata
  planned := by
    rw [hsteady.history]
    exact h.planned
  held := by
    rw [hsteady.history]
    exact h.held

theorem Account.reading {op : Operation ω} (h : Account limits metadata planned held op)
    (hread : ReadAsPlanned planned held) (hfits : blocksTotal planned ≤ limits.maxMetadataBytes.toNat) :
    Fit limits op where
  total := by
    rw [h.planned]
    exact hfits
  read := by
    rw [h.planned, h.held]
    exact hread

theorem Account.fit {op : Operation ω} (h : Account limits metadata blocks blocks op)
    (hfits : blocksTotal blocks ≤ limits.maxMetadataBytes.toNat) : Fit limits op :=
  h.reading .all hfits

theorem steady_reading {α : Type} {m : OperationM ω α} (hm : Moves Steady m)
    (hread : ReadAsPlanned planned held) (hfits : blocksTotal planned ≤ limits.maxMetadataBytes.toNat) :
    Meets (Account limits metadata planned held) m (fun _ => Account limits metadata planned held)
      fun _ => Fit limits :=
  (hm.meets fun _ _ hsteady hs => hs.steady hsteady).mono (fun _ hs => hs) (fun _ _ hs => hs)
    fun _ _ hs => hs.reading hread hfits

theorem steady_account {α : Type} {m : OperationM ω α} (hm : Moves Steady m)
    (hfits : blocksTotal blocks ≤ limits.maxMetadataBytes.toNat) :
    Meets (Account limits metadata blocks blocks) m (fun _ => Account limits metadata blocks blocks)
      fun _ => Fit limits :=
  steady_reading hm .all hfits

theorem notePlanned_account (block : MetadataBlock) (size : ℕ) :
    Meets (Account (ω := ω) limits metadata planned held)
      (Operation.recordHistory (notePlanned block size))
      (fun _ => Account limits metadata (planned ++ [(block, size)]) held) fun _ => Fit limits := by
  intro op hop
  refine ⟨hop.sound.history rfl rfl, hop.metadata, ?_, hop.held⟩
  show op.history.planned ++ _ = _
  rw [hop.planned]

theorem noteHeld_account (block : MetadataBlock) (size : ℕ) :
    Meets (Account (ω := ω) limits metadata planned held)
      (Operation.recordHistory (noteHeld block size))
      (fun _ => Account limits metadata planned (held ++ [(block, size)])) fun _ => Fit limits := by
  intro op hop
  refine ⟨hop.sound.history rfl rfl, hop.metadata, hop.planned, ?_⟩
  show op.history.held ++ _ = _
  rw [hop.held]

theorem chargeMetadata_account (bytes : UInt64)
    (hfits : blocksTotal blocks ≤ limits.maxMetadataBytes.toNat) :
    Meets (Account (ω := ω) limits metadata blocks blocks) (Operation.chargeMetadata bytes)
      (fun _ op => metadata + bytes.toNat ≤ limits.maxMetadataBytes.toNat ∧
        Account limits (metadata + bytes.toNat) blocks blocks op) fun _ => Fit limits := by
  intro op hop
  have hprudent : Prudent limits op (Operation.chargeMetadata bytes op).2 :=
    chargeMetadata_prudent bytes op
  unfold Operation.chargeMetadata at hprudent ⊢
  rcases onBudget_cases (fun b => b.chargeMetadata bytes) op with ⟨budget, hf, hrun⟩ | ⟨e, -, hrun⟩
  · rw [hrun] at hprudent ⊢
    obtain ⟨hbudget, htoNat, hle⟩ := OperationBudget.chargeMetadata_spec hf
    rw [hop.metadata] at htoNat
    have hlimit := UInt64.le_iff_toNat_le.mp hle
    rw [htoNat, hop.sound.sameLimits] at hlimit
    refine ⟨hlimit, hprudent.sound hop.sound, ?_, hop.planned, hop.held⟩
    dsimp only
    rw [hbudget]
    exact htoNat
  · rw [hrun]
    exact hop.fit hfits

theorem metadataRemaining_account : Meets (Account (ω := ω) limits metadata blocks blocks)
    Operation.metadataRemaining
    (fun remaining op => remaining.toNat = limits.maxMetadataBytes.toNat - metadata ∧
      metadata ≤ limits.maxMetadataBytes.toNat ∧ Account limits metadata blocks blocks op)
    fun _ => Fit limits := by
  intro op hop
  rw [metadataRemaining_run hop.sound.within]
  have hremaining := OperationBudget.metadataRemaining_toNat hop.sound.within
  have hwithin := UInt64.le_iff_toNat_le.mp hop.sound.within.metadata
  rw [hop.sound.sameLimits, hop.metadata] at hremaining hwithin
  exact ⟨hremaining, hwithin, hop⟩

theorem mapMetadataError_meets {α : Type} {P : Operation ω → Prop} {Q : α → Operation ω → Prop}
    {I : Operation ω → Prop} {m : OperationM ω α} (h : Meets P m Q fun _ => I) :
    Meets P (mapMetadataError m) Q fun _ => I := by
  intro op hop
  have hout := h op hop
  unfold mapMetadataError
  rcases hrun : m op with ⟨e | a, op'⟩
  · rw [hrun] at hout
    exact hout
  · rw [hrun] at hout
    exact hout

variable (env : Environment ω δ) (source : SourceReader ω)

theorem buffer_account (bytes : List UInt8) : Meets (Account limits metadata blocks blocks)
    (source.buffer bytes)
    (fun buffer op => buffer.bytes = bytes ∧ Account limits metadata blocks blocks op)
    fun _ => Fit limits := by
  intro op hop
  exact ⟨rfl, hop.steady (buffer_steady source bytes op)⟩

theorem readToEnd_length (limit : ℕ) : ∀ (turns : ℕ) (reader : CheckedReader δ) {output bytes : List UInt8}
    {op op' : Operation ω}, output.length ≤ limit →
    readToEnd env limit turns reader output op = (.ok bytes, op') → bytes.length ≤ limit
  | 0, _, _, _, _, _, _, h => by cases h
  | turns + 1, reader, output, bytes, op, op', hle, h => by
    by_cases hlimit : output.length = limit
    · have hend := (congrFun (if_pos hlimit) op).symm.trans h
      cases hend
      exact hle
    replace h := (congrFun (if_neg hlimit) op).symm.trans h
    rcases hread : reader.read env (min 8192 (limit - output.length)) op.outside with ⟨e | chunk, reader', outside⟩
    · rw [hread] at h
      cases e with
      | interrupted => exact readToEnd_length limit turns reader' hle h
      | _ => cases h
    · rw [hread] at h
      dsimp only at h
      split at h
      · cases h
        exact hle
      · have hchunk := CheckedReader.read_length env _ _ _ _ _ hread
        refine readToEnd_length limit turns reader' ?_ h
        rw [List.length_append]
        omega

theorem readBoundedToVec_length {limit : ℕ} (reader : FolderReader δ) {bytes : List UInt8} {op op' : Operation ω}
    (h : reader.readBoundedToVec env limit op = (.ok bytes, op')) : bytes.length ≤ limit := by
  cases reader with
  | Stream reader => exact readToEnd_length env limit _ reader (Nat.zero_le _) h
  | Buffered all =>
    cases h
    exact List.length_take_le limit all

/-- A folder is decoded to exactly its size, and that is planned first. -/
theorem collect_account (block : MetadataBlock) (ready : ReadyFolder δ) (password : Option String)
    {limit : UInt64} (hfits : blocksTotal blocks ≤ limits.maxMetadataBytes.toNat)
    (hsize : ready.folder.unpackSize ≤ limit →
      blocksTotal blocks + ready.folder.unpackSize.toNat ≤ limits.maxMetadataBytes.toNat) :
    Meets (Account limits metadata blocks blocks) (ready.collect env block password limit)
      (fun bytes op => bytes.length = ready.folder.unpackSize.toNat ∧ ready.folder.unpackSize ≤ limit ∧
        Account limits metadata (blocks ++ [(block, bytes.length)]) (blocks ++ [(block, bytes.length)]) op)
      fun _ => Fit limits := by
  intro op hop
  refine Outcome.ite (fun _ => hop.fit hfits) fun _ => Outcome.ite (fun _ => hop.fit hfits) fun hlimit => ?_
  have hle : ready.folder.unpackSize ≤ limit := UInt64.not_lt.mp hlimit
  have hplanned : blocksTotal (blocks ++ [(block, ready.folder.unpackSize.toNat)]) ≤
      limits.maxMetadataBytes.toNat := by
    rw [blocksTotal_append, blocksTotal_single]
    exact hsize hle
  refine Meets.bind (notePlanned_account block _) (fun _ => ?_) op hop
  refine (steady_reading (startDecoder_steady env _ _) (.missing _) hplanned).bind fun reader => ?_
  refine Meets.bind (Q := fun bytes op => bytes.length ≤ ready.folder.unpackSize.toNat + 1 ∧
    Account limits metadata (blocks ++ [(block, ready.folder.unpackSize.toNat)]) blocks op) ?_ fun bytes => ?_
  · refine .of_outcomes (fun op bytes op' hop hrun => ?_) fun op e op' hop hrun => ?_
    · exact ⟨readBoundedToVec_length env reader hrun, hop.steady ((readBoundedToVec_steady env _ _).ok hrun)⟩
    · exact (hop.steady ((readBoundedToVec_steady env _ _).error hrun)).reading (.missing _) hplanned
  rintro op ⟨hread, hop⟩
  refine Meets.bind (noteHeld_account block bytes.length) (fun _ => ?_) op hop
  refine Meets.bind (Q := fun _ op => bytes.length = ready.folder.unpackSize.toNat ∧
    Account limits metadata (blocks ++ [(block, ready.folder.unpackSize.toNat)])
      (blocks ++ [(block, bytes.length)]) op) ?_ fun _ => ?_
  · refine Meets.ofExcept (fun _ op hok hop => ⟨?_, hop⟩) fun _ op _ hop => hop.reading (.wrong hread) hplanned
    unfold verifyFolderOutput at hok
    split at hok
    · cases hok
    · rename_i hlength
      exact not_ne_iff.mp hlength
  · rintro op ⟨hlength, hop⟩
    refine ⟨hlength, hle, ?_⟩
    rw [← hlength] at hop
    exact hop

/-! External folder definitions -/

inductive Sums (bound : Option UInt64) (turns : ℕ) (plans last : FolderPlans)
    (outputSize total : UInt64) : Prop where
  | done (after : FolderPlans) (hnext : plans.next = (none, after)) (htotal : total = outputSize)
  | folder (folder : FolderLayout) (after : FolderPlans) (next : UInt64)
      (hnext : plans.next = (some (.ok folder), after))
      (hsize : next.toNat = outputSize.toNat + folder.unpackSize.toNat)
      (hrest : FolderLayouts.addOutputs bound turns after next = .ok (last, total))

theorem addOutputs_cases {bound : Option UInt64} {turns : ℕ} {plans last : FolderPlans}
    {outputSize total : UInt64}
    (h : FolderLayouts.addOutputs bound (turns + 1) plans outputSize = .ok (last, total)) :
    Sums bound turns plans last outputSize total := by
  unfold FolderLayouts.addOutputs at h
  rcases hnext : plans.next with ⟨_ | _ | folder, after⟩
  · rw [hnext] at h
    cases h
    exact .done _ hnext rfl
  · rw [hnext] at h
    cases h
  · rw [hnext] at h
    obtain ⟨next, hsize, h⟩ := Wire.except_bind_eq_ok.mp h
    split at h
    · cases h
    · exact .folder folder after next hnext (checkedAddPosition_eq_ok hsize) h

theorem addOutputs_le {bound : Option UInt64} : ∀ {turns : ℕ} {plans last : FolderPlans}
    {outputSize total : UInt64},
    FolderLayouts.addOutputs bound turns plans outputSize = .ok (last, total) →
      outputSize.toNat ≤ total.toNat
  | 0, _, _, _, _, h => by
    cases h
    exact le_rfl
  | turns + 1, _, _, _, _, h => by
    cases addOutputs_cases h with
    | done after hnext htotal => rw [htotal]
    | folder folder after next hnext hsize hrest =>
      have hle := addOutputs_le hrest
      omega

theorem decodeFolders_account (packs : PackedSource) (password : Option String) (limit : UInt64)
    {bound : Option UInt64} : ∀ (turns : ℕ) {plans last : FolderPlans} {outputSize total : UInt64}
      {blocks : List (MetadataBlock × ℕ)} (collector : ExternalFolderCollector),
      FolderLayouts.addOutputs bound turns plans outputSize = .ok (last, total) →
      blocksTotal blocks + (total.toNat - outputSize.toNat) ≤ limits.maxMetadataBytes.toNat →
      Meets (Account limits metadata blocks blocks)
        (decodeFolders env source packs password limit turns plans collector)
        (fun _ op => ∃ more, blocksTotal more = total.toNat - outputSize.toNat ∧
          Account limits metadata (blocks ++ more) (blocks ++ more) op) fun _ => Fit limits
  | 0, plans, last, outputSize, total, blocks, collector, hadd, hfits => by
    cases hadd
    refine fun op hop => ⟨[], (Nat.sub_self _).symm, ?_⟩
    rw [List.append_nil]
    exact hop
  | turns + 1, plans, last, outputSize, total, blocks, collector, hadd, hfits => by
    unfold decodeFolders
    cases addOutputs_cases hadd with
    | done after hnext htotal =>
      rw [hnext, htotal]
      refine fun op hop => ⟨[], (Nat.sub_self _).symm, ?_⟩
      rw [List.append_nil]
      exact hop
    | folder folder after next hnext hsize hrest =>
      rw [hnext]
      have hle := addOutputs_le hrest
      -- what the folders add up to was let through before, so each of them fits
      have hplanned : blocksTotal blocks ≤ limits.maxMetadataBytes.toNat := by omega
      refine Meets.bind (Q := fun ready op => ready.folder = folder ∧
        Account limits metadata blocks blocks op) ?_ fun ready => ?_
      · refine .of_outcomes (fun op ready op' hop hrun => ?_) fun op e op' hop hrun => ?_
        · exact ⟨(FolderLayout.bind_chained env hrun).2, hop.steady ((bind_steady env _ _).ok hrun)⟩
        · exact (hop.steady ((bind_steady env _ _).error hrun)).fit hplanned
      rintro op ⟨hfolder, hop⟩
      refine Meets.bind (collect_account env .ExternalData ready password hplanned fun _ => ?_)
        (fun bytes => ?_) op hop
      · rw [hfolder]
        omega
      rintro op ⟨hlength, -, hop⟩
      rw [hfolder] at hlength
      have hmore : blocksTotal (blocks ++ [(MetadataBlock.ExternalData, bytes.length)]) +
          (total.toNat - next.toNat) ≤ limits.maxMetadataBytes.toNat := by
        rw [blocksTotal_append, blocksTotal_single]
        omega
      refine Meets.bind (steady_account (buffer_steady source bytes) (by omega)) (fun buffer => ?_) op hop
      refine Meets.bind (Q := fun _ => Account limits metadata
        (blocks ++ [(MetadataBlock.ExternalData, bytes.length)])
        (blocks ++ [(MetadataBlock.ExternalData, bytes.length)]))
        (Meets.ofExcept (fun _ _ _ hop => hop) fun _ _ _ hop => hop.fit (by omega)) fun collector => ?_
      refine (decodeFolders_account packs password limit turns collector hrest hmore).post ?_
      rintro _ op ⟨more, htotal, hop⟩
      refine ⟨(.ExternalData, bytes.length) :: more, ?_, ?_⟩
      · have hcons : blocksTotal ((.ExternalData, bytes.length) :: more) =
            bytes.length + blocksTotal more := rfl
        omega
      · rw [List.append_assoc] at hop
        exact hop

/-- Slots and output are charged before any of it is decoded. -/
theorem externalPlan_account (streams : StreamInfo)
    (hfits : blocksTotal blocks ≤ limits.maxMetadataBytes.toNat) :
    Meets (Account (ω := ω) limits metadata blocks blocks) (ExternalFolderPlan.new streams)
      (fun plan op => ∃ bound last, FolderLayouts.addOutputs bound
          (plan.folders.plans.unpackInfo.numFoldersUsize + 1) plan.folders.plans 0 =
            .ok (last, plan.outputLimit) ∧
        metadata + plan.folders.streamCount * BYTES_SIZE + plan.outputLimit.toNat ≤
          limits.maxMetadataBytes.toNat ∧
        Account limits (metadata + plan.folders.streamCount * BYTES_SIZE + plan.outputLimit.toNat)
          blocks blocks op)
      fun _ => Fit limits := by
  refine Meets.bind (Q := fun _ => Account limits metadata blocks blocks)
    (Meets.ofExcept (fun _ _ _ hop => hop) fun _ _ _ hop => hop.fit hfits) fun folders => ?_
  obtain ⟨pack, unpack⟩ := folders
  refine metadataRemaining_account.bind fun remaining => ?_
  refine Meets.bind (Q := fun validated op =>
    FolderLayouts.preflight pack unpack streams.substreamInfo remaining = .ok validated ∧
      Account limits metadata blocks blocks op) ?_ fun validated => ?_
  · exact mapMetadataError_meets (Meets.ofExcept (fun _ _ hok hop => ⟨hok, hop.2.2⟩)
      fun _ _ _ hop => hop.2.2.fit hfits)
  refine Meets.bind (Q := fun slotBytes op =>
    FolderLayouts.preflight pack unpack streams.substreamInfo remaining = .ok validated ∧
      slotBytes.toNat = validated.layouts.streamCount * BYTES_SIZE ∧
      Account limits metadata blocks blocks op) ?_ fun slotBytes => ?_
  · refine Meets.ofExcept (fun slotBytes op hok hop => ⟨hop.1, ?_, hop.2⟩)
      fun _ _ _ hop => hop.2.fit hfits
    unfold externalSlotBytes at hok
    split at hok
    · rename_i hlt
      cases hok
      exact UInt64.toNat_ofNat_of_lt' hlt
    · cases hok
  rintro op ⟨hvalidated, hslots, hop⟩
  refine Meets.bind (chargeMetadata_account slotBytes hfits) (fun _ => ?_) op hop
  rintro op ⟨-, hop⟩
  refine Meets.bind (chargeMetadata_account validated.outputSize hfits) (fun _ => ?_) op hop
  rintro op ⟨hlimit, hop⟩
  -- both charges went through, and `preflight` says what they were for
  rw [hslots] at hlimit hop
  obtain ⟨_, -, hvalidated⟩ := Wire.except_bind_eq_ok.mp hvalidated
  dsimp only at hvalidated
  split at hvalidated
  · cases hvalidated
  obtain ⟨⟨last, total⟩, hadd, hvalidated⟩ := Wire.except_bind_eq_ok.mp hvalidated
  obtain ⟨streamCount, -, hvalidated⟩ := Wire.except_bind_eq_ok.mp hvalidated
  dsimp only at hvalidated
  split at hvalidated
  · cases hvalidated
  · cases hvalidated
    exact ⟨_, last, hadd, hlimit, hop⟩

theorem decodeAdditional_account (baseOffset : UInt64) (streams : StreamInfo) (password : Option String)
    (hbalanced : blocksTotal blocks = metadata)
    (hfits : blocksTotal blocks ≤ limits.maxMetadataBytes.toNat) :
    Meets (Account limits metadata blocks blocks)
      (decodeAdditionalFolderData env source baseOffset streams password)
      (fun _ op => ∃ more, metadata + blocksTotal more ≤ limits.maxMetadataBytes.toNat ∧
        Account limits (metadata + blocksTotal more) (blocks ++ more) (blocks ++ more) op)
      fun _ => Fit limits := by
  refine (externalPlan_account streams hfits).bind fun plan => ?_
  rintro op ⟨bound, last, hadd, hlimit, hop⟩
  have hzero : (0 : UInt64).toNat = 0 := rfl
  have hle := addOutputs_le hadd
  generalize hcharged : metadata + plan.folders.streamCount * BYTES_SIZE + plan.outputLimit.toNat =
    charged at hlimit hop
  refine Meets.bind (Q := fun _ => Account limits charged blocks blocks)
    (Meets.ofExcept (fun _ _ _ hop => hop) fun _ _ _ hop => hop.fit hfits) (fun packs => ?_) op hop
  refine (notePlanned_account .ExternalSlots _).bind fun _ => (noteHeld_account .ExternalSlots _).bind
    fun _ => ?_
  have hslots : blocksTotal (blocks ++ [(MetadataBlock.ExternalSlots,
      plan.folders.streamCount * BYTES_SIZE)]) + (plan.outputLimit.toNat - (0 : UInt64).toNat) ≤
      limits.maxMetadataBytes.toNat := by
    rw [blocksTotal_append, blocksTotal_single]
    omega
  refine (decodeFolders_account env source packs password _ _ _ hadd hslots).bind fun collector => ?_
  rintro op ⟨more, htotal, hop⟩
  rw [List.append_assoc] at hop
  have hblocks : metadata + blocksTotal ([(MetadataBlock.ExternalSlots,
      plan.folders.streamCount * BYTES_SIZE)] ++ more) = charged := by
    rw [blocksTotal_append, blocksTotal_single]
    omega
  refine Outcome.ite (fun _ => ⟨[(.ExternalSlots, plan.folders.streamCount * BYTES_SIZE)] ++ more,
    ?_, ?_⟩) fun _ => hop.fit ?_
  · rw [hblocks]
    exact hlimit
  · rw [hblocks]
    exact hop
  · rw [blocksTotal_append]
    omega

/-! The header -/

/-- Everything that was planned, `first` and more, was read, and all of it was charged. -/
def Settled (limits : ResourceLimits) (first : List (MetadataBlock × ℕ)) (op : Operation ω) : Prop :=
  ∃ more, blocksTotal (first ++ more) ≤ limits.maxMetadataBytes.toNat ∧
    Account limits (blocksTotal (first ++ more)) (first ++ more) (first ++ more) op

theorem parseHeader_account (baseOffset : UInt64) (bytes : Wire.Slice) (password : Option String)
    {blocks : List (MetadataBlock × ℕ)} (hbytes : blocksTotal blocks = metadata + bytes.bytes.length)
    (hfits : blocksTotal blocks ≤ limits.maxMetadataBytes.toNat) :
    Meets (Account limits metadata blocks blocks)
      (parseHeaderWithExternalData env source baseOffset bytes password)
      (fun _ => Settled limits blocks) fun _ => Fit limits := by
  have hlength : (UInt64.ofNat bytes.bytes.length).toNat = bytes.bytes.length := by
    have hmax := limits.maxMetadataBytes.toNat_lt
    have hlt : bytes.bytes.length < 2 ^ 64 := by omega
    exact UInt64.toNat_ofNat_of_lt' hlt
  refine (chargeMetadata_account _ hfits).bind fun _ => ?_
  rintro op ⟨hlimit, hop⟩
  rw [hlength, ← hbytes] at hlimit hop
  refine Meets.bind (Q := fun _ => Account limits (blocksTotal blocks) blocks blocks)
    (Meets.ofExcept (fun _ _ _ hop => hop) fun _ _ _ hop => hop.fit hfits) (fun resolution => ?_) op hop
  cases resolution with
  | complete header =>
    refine (steady_account ?_ hfits).bind fun _ => ?_
    · refine (Moves.ofExcept _).bind fun streams => ?_
      cases streams.bind StreamInfo.packInfo with
      | none => exact Moves.pure _
      | some packInfo => exact (Moves.ofExcept _).bind fun _ => verifyPackCrcs_steady source _ _ _ _ _
    · refine fun op hop => ⟨[], ?_⟩
      rw [List.append_nil]
      exact ⟨hlimit, hop⟩
  | requiresExternalFolders pending =>
    refine (decodeAdditional_account env source baseOffset _ password rfl hfits).bind fun external => ?_
    rintro op ⟨more, hmore, hop⟩
    rw [← blocksTotal_append] at hmore hop
    refine Meets.ofExcept (fun _ _ _ hop => ⟨more, hmore, hop⟩)
      (fun _ _ _ hop => hop.fit hmore) op hop

theorem decodeEncodedHeader_account (baseOffset : UInt64) (encoded : EncodedHeader)
    (password : Option String) {blocks : List (MetadataBlock × ℕ)} (hblocks : blocksTotal blocks = metadata)
    (hfits : blocksTotal blocks ≤ limits.maxMetadataBytes.toNat) :
    Meets (Account limits metadata blocks blocks)
      (decodeEncodedHeader env source baseOffset encoded password)
      (fun _ op => ∃ size, Settled limits (blocks ++ [(.DecodedHeader, size)]) op)
      fun _ => Fit limits := by
  refine metadataRemaining_account.bind fun remaining => ?_
  refine Meets.bind (Q := fun _ => Account limits metadata blocks blocks)
    (mapMetadataError_meets (Meets.ofExcept (fun _ _ _ hop => hop.2.2)
      fun _ _ _ hop => hop.2.2.fit hfits)) fun folder => ?_
  refine Meets.bind (Q := fun _ => Account limits metadata blocks blocks)
    (Meets.ofExcept (fun _ _ _ hop => hop) fun _ _ _ hop => hop.fit hfits) fun packs => ?_
  refine metadataRemaining_account.bind fun remaining => ?_
  rintro op ⟨hremaining, hcharged, hop⟩
  have hdecode : Meets (Account limits metadata blocks blocks) (do
        let ready ← folder.bind env packs
        ready.collect env .DecodedHeader password remaining)
      (fun bytes op => bytes.length ≤ remaining.toNat ∧ Account limits metadata
        (blocks ++ [(.DecodedHeader, bytes.length)]) (blocks ++ [(.DecodedHeader, bytes.length)]) op)
      fun _ => Fit limits := by
    refine (steady_account (bind_steady env folder packs) hfits).bind fun ready => ?_
    refine (collect_account env .DecodedHeader ready password hfits fun hle => ?_).post ?_
    · have hsize := UInt64.le_iff_toNat_le.mp hle
      omega
    · rintro bytes op ⟨hlength, hle, hop⟩
      have hsize := UInt64.le_iff_toNat_le.mp hle
      exact ⟨by omega, hop⟩
  refine Meets.bind (mapMetadataError_meets hdecode) (fun decoded => ?_) op hop
  rintro op ⟨hlength, hop⟩
  have htotal : blocksTotal (blocks ++ [(.DecodedHeader, decoded.length)]) =
      metadata + decoded.length := by
    rw [blocksTotal_append, blocksTotal_single, hblocks]
  refine Meets.bind (buffer_account source decoded) (fun buffer => ?_) op hop
  rintro op ⟨hbuffer, hop⟩
  refine Outcome.mono (parseHeader_account env source baseOffset buffer password ?_ ?_ op hop)
    (fun _ _ hop => ⟨decoded.length, hop⟩) fun _ _ hop => hop
  · rw [hbuffer, htotal]
  · omega

theorem readRange_account (range : UInt64 × UInt64) : Meets (Account limits 0 [] [])
    (source.readRangeToVec .NextHeader range limits.maxMetadataBytes)
    (fun bytes op => bytes.length = range.2.toNat - range.1.toNat ∧
      bytes.length ≤ limits.maxMetadataBytes.toNat ∧
      Account limits 0 [(.NextHeader, bytes.length)] [(.NextHeader, bytes.length)] op)
    fun _ => Fit limits := by
  intro op hop
  refine Outcome.ite (fun _ => hop.fit (Nat.zero_le _)) fun hle => ?_
  have hlength : range.2.toNat - range.1.toNat ≤ limits.maxMetadataBytes.toNat := Nat.le_of_not_lt hle
  have hfits : blocksTotal ([] ++ [(MetadataBlock.NextHeader, range.2.toNat - range.1.toNat)]) ≤
      limits.maxMetadataBytes.toNat := by
    rw [blocksTotal_append, blocksTotal_single]
    exact (Nat.zero_add _).trans_le hlength
  refine Meets.bind (notePlanned_account .NextHeader _) (fun _ => ?_) op hop
  refine (steady_reading (external_steady _) (.missing _) hfits).bind fun bytes => ?_
  refine (noteHeld_account .NextHeader bytes.val.length).bind fun _ => ?_
  obtain ⟨bytes, hbytes⟩ := bytes
  intro op hop
  have hop : Account limits 0 [(.NextHeader, range.2.toNat - range.1.toNat)]
    [(.NextHeader, bytes.length)] op := hop
  rw [← hbytes] at hop
  exact ⟨hbytes, hbytes.trans_le hlength, hop⟩

theorem checkedRange_length {total start length : UInt64} {range : UInt64 × UInt64}
    (h : checkedRange total start length = .ok range) : range.2.toNat - range.1.toNat = length.toNat := by
  obtain ⟨stop, hstop, h⟩ := Wire.except_bind_eq_ok.mp h
  have hadd := checkedAddPosition_eq_ok hstop
  split at h
  · cases h
    dsimp only
    omega
  · cases h

structure OpenedWithin (limits : ResourceLimits) (archive : OpenedArchive) (op : Operation ω) : Prop where
  held : op.history.held = op.history.planned
  charged : op.budget.metadata.toNat = blocksTotal op.history.held
  fits : blocksTotal op.history.held ≤ limits.maxMetadataBytes.toNat
  nextHeader : op.history.held.head? = some (.NextHeader, archive.signature.nextHeaderSize.toNat)
  decodedHeader : archive.encodedHeader.isSome = true →
    ∃ size, op.history.held[1]? = some (.DecodedHeader, size)

theorem Settled.opened {archive : OpenedArchive} {rest : List (MetadataBlock × ℕ)} {op : Operation ω}
    (h : Settled limits ((.NextHeader, archive.signature.nextHeaderSize.toNat) :: rest) op)
    (hdecoded : archive.encodedHeader.isSome = true → ∃ size, rest = [(.DecodedHeader, size)]) :
    OpenedWithin limits archive op := by
  obtain ⟨more, hfits, hop⟩ := h
  refine ⟨hop.held.trans hop.planned.symm, ?_, ?_, ?_, fun hencoded => ?_⟩
  · rw [hop.held]
    exact hop.metadata
  · rw [hop.held]
    exact hfits
  · rw [hop.held]
    rfl
  · obtain ⟨size, hrest⟩ := hdecoded hencoded
    refine ⟨size, ?_⟩
    rw [hop.held, hrest]
    rfl

theorem fromSource_account (password : Option String) : Meets (Account limits 0 [] [])
    (OpenedArchive.fromSourceWithBudget env source password)
    (fun archive => OpenedWithin limits archive) fun _ => Fit limits := by
  have hzero : blocksTotal [] ≤ limits.maxMetadataBytes.toNat := Nat.zero_le _
  refine Meets.get_bind fun op hop => ?_
  rw [hop.sound.sameLimits]
  refine Meets.bind (steady_account (external_steady _) hzero) (fun sourceLen => ?_) op hop
  refine (steady_account (external_steady _) hzero).bind fun found => ?_
  obtain ⟨baseOffset, signature⟩ := found
  intro op hop
  refine Outcome.ite (fun _ => hop.fit hzero) fun _ => ?_
  -- checks read nothing
  have hofExcept : ∀ {α : Type} (x : Except R7zError α), Meets (Account limits 0 [] [])
      (ofExcept x : OperationM ω α) (fun a op => x = .ok a ∧ Account limits 0 [] [] op)
      fun _ => Fit limits :=
    fun x => Meets.ofExcept (fun _ _ hok hop => ⟨hok, hop⟩) fun _ _ _ hop => hop.fit hzero
  refine Meets.bind (hofExcept _) (fun base => ?_) op hop
  rintro op ⟨-, hop⟩
  refine Meets.bind (hofExcept _) (fun headerStart => ?_) op hop
  rintro op ⟨-, hop⟩
  refine Meets.bind (hofExcept _) (fun headerRange => ?_) op hop
  rintro op ⟨hrange, hop⟩
  have hlength := checkedRange_length hrange
  refine Meets.bind (readRange_account source headerRange) (fun bytes => ?_) op hop
  rintro op ⟨hbytes, hfits, hop⟩
  rw [hlength] at hbytes
  have htotal : blocksTotal [(MetadataBlock.NextHeader, bytes.length)] = bytes.length :=
    blocksTotal_single _ _
  have hblocks : blocksTotal [(MetadataBlock.NextHeader, bytes.length)] ≤
      limits.maxMetadataBytes.toNat := by omega
  refine Outcome.ite (fun _ => hop.fit hblocks) fun _ => ?_
  refine Meets.bind (buffer_account source bytes) (fun nextHeader => ?_) op hop
  rintro op ⟨hbuffer, hop⟩
  refine Meets.bind (Q := fun _ => Account limits 0 [(.NextHeader, bytes.length)]
    [(.NextHeader, bytes.length)]) (Meets.ofExcept (fun _ _ _ hop => hop)
      fun _ _ _ hop => hop.fit hblocks) (fun next => ?_) op hop
  cases next with
  | Plain =>
    refine Meets.bind (parseHeader_account env source baseOffset nextHeader password ?_ hblocks)
      fun header => ?_
    · rw [hbuffer]
      omega
    · intro op hop
      rw [hbytes] at hop
      exact hop.opened fun h => by cases h
  | Encoded encoded =>
    refine (chargeMetadata_account _ hblocks).bind fun _ => ?_
    rintro op ⟨-, hop⟩
    -- the bytes of an encoded header are charged once they are held
    have hcharge : 0 + (UInt64.ofNat nextHeader.bytes.length).toNat = bytes.length := by
      rw [hbuffer, hbytes, Nat.zero_add]
      exact UInt64.toNat_ofNat_of_lt' signature.nextHeaderSize.toNat_lt
    rw [hcharge] at hop
    refine Meets.bind (decodeEncodedHeader_account env source baseOffset encoded password htotal hblocks)
      (fun header => ?_) op hop
    rintro op ⟨size, hop⟩
    rw [hbytes] at hop
    exact hop.opened fun _ => ⟨size, rfl⟩

/-- Opening an archive puts no more into memory than the limit for metadata allows. Before a block is
read or decoded it is planned, and the planned blocks fit together, also when opening fails in the end; no
other is read, and of each no more than its size, but for one byte that tells that there is more. When
opening succeeds, exactly the planned blocks were read, and their sizes are what was charged. -/
theorem open_within_metadata_limit (limits : ResourceLimits) (hasControl : Bool)
    (password : Option String) (outside : ω) :
    let run := OpenedArchive.fromSourceWithBudget env source password
      (Operation.new (OperationBudget.new limits hasControl) outside)
    blocksTotal run.2.history.planned ≤ limits.maxMetadataBytes.toNat ∧
      ReadAsPlanned run.2.history.planned run.2.history.held ∧
      blocksTotal run.2.history.held ≤ limits.maxMetadataBytes.toNat + 1 ∧
      ∀ archive, run.1 = .ok archive → OpenedWithin limits archive run.2 := by
  have hnew : Account limits 0 [] [] (Operation.new (OperationBudget.new limits hasControl) outside) :=
    ⟨Operation.new_sound limits hasControl outside, rfl, rfl, rfl⟩
  have hout := fromSource_account env source password _ hnew
  intro run
  have hfit : Fit limits run.2 := by
    rcases hrun : OpenedArchive.fromSourceWithBudget env source password
      (Operation.new (OperationBudget.new limits hasControl) outside) with ⟨e | archive, op⟩
    · rw [hrun] at hout
      exact (congrArg Prod.snd hrun).symm ▸ hout
    · rw [hrun] at hout
      have hopened : OpenedWithin limits archive op := hout
      have hfit : Fit limits op := ⟨hopened.held ▸ hopened.fits, hopened.held ▸ .all⟩
      exact (congrArg Prod.snd hrun).symm ▸ hfit
  refine ⟨hfit.total, hfit.read, hfit.read.total_le.trans (Nat.succ_le_succ hfit.total), fun archive harchive => ?_⟩
  exact Meets.ok (fromSource_account env source password) hnew (Prod.ext harchive rfl)

end

end R7z
