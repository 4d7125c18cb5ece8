import R7z.Decode.Accounting

/-! Decoded bytes are charged before they are handed on. Output that was charged in advance is behind
a reader that gives no more than that; any other read is charged as it is made. -/

namespace R7z

open Effect Effect.Machine

def History.handed (history : History) : ℕ :=
  (history.callbacks.map fun run => (run.handed.map fun read => read.2.length).sum).sum

theorem handed_noteInvoked (entry : ℕ) (history : History) :
    (noteInvoked entry history).handed = history.handed := Nat.zero_add _

theorem handed_noteHanded (size : ℕ) (bytes : List UInt8) (history : History) :
    (noteHanded size bytes history).handed ≤ history.handed + bytes.length := by
  unfold noteHanded
  split
  · exact Nat.le_add_right _ _
  · rename_i run runs hruns
    unfold History.handed
    rw [hruns]
    simp only [List.map_append, List.map_cons, List.map_nil, List.sum_append, List.sum_cons,
      List.sum_nil]
    omega

section
variable {ω δ κ : Type} {limits : ResourceLimits}

/-- The counters are within their limits, they count what was charged, and no difference was taken of a
counter above its limit. -/
structure Operation.Sound (limits : ResourceLimits) (op : Operation ω) : Prop where
  sameLimits : op.budget.limits = limits
  kdfLimit : op.budget.kdf.limit = limits.maxTotalKdfCycles
  within : op.budget.Within
  counts : op.budget.Counts op.history.charged
  underflow : op.history.underflow = false

theorem Operation.new_sound (limits : ResourceLimits) (hasControl : Bool) (outside : ω) :
    (Operation.new (OperationBudget.new limits hasControl) outside).Sound limits :=
  ⟨rfl, rfl, OperationBudget.new_within limits hasControl, OperationBudget.new_counts limits hasControl, rfl⟩

namespace Steady

variable {op op' : Operation ω}

theorem sound (h : Steady op op') (hop : op.Sound limits) : op'.Sound limits where
  sameLimits := h.limits.trans hop.sameLimits
  kdfLimit := h.kdfLimit.trans hop.kdfLimit
  within :=
    { metadata := by rw [h.metadata, h.limits]; exact hop.within.metadata
      decoded := by rw [h.decoded, h.limits]; exact hop.within.decoded
      kdf := h.kdf hop.within.kdf }
  counts := by
    have hcounts := hop.counts
    unfold OperationBudget.Counts at hcounts ⊢
    rw [h.limits, h.decoded, h.history]
    exact hcounts
  underflow := by rw [h.history]; exact hop.underflow

theorem handed (h : Steady op op') : op'.history.handed = op.history.handed := by
  rw [h.history]
  rfl

theorem charged (h : Steady op op') : op'.history.charged = op.history.charged := by rw [h.history]

end Steady

theorem Operation.Sound.history {op : Operation ω} (h : op.Sound limits) {history : History}
    (hcharged : history.charged = op.history.charged)
    (hunderflow : history.underflow = op.history.underflow) : { op with history }.Sound limits where
  sameLimits := h.sameLimits
  kdfLimit := h.kdfLimit
  within := h.within
  counts := by
    rw [hcharged]
    exact h.counts
  underflow := hunderflow.trans h.underflow

theorem chargeDecoded_sound {bytes : UInt64} {op : Operation ω} (hop : op.Sound limits) :
    (∃ op', Operation.chargeDecoded bytes op = (.ok (), op') ∧ op'.Sound limits ∧
      op'.history.charged = op.history.charged + bytes.toNat ∧
      op'.history.handed = op.history.handed) ∨
    ∃ e, Operation.chargeDecoded bytes op = (.error e, op) := by
  unfold Operation.chargeDecoded
  rcases onBudget_cases (fun b => b.chargeDecoded bytes) op with ⟨budget, hf, hrun⟩ | ⟨e, -, hrun⟩
  · left
    obtain ⟨decoded, hdecoded, hf⟩ := Wire.except_bind_eq_ok.mp hf
    have hbudget : budget = { op.budget with decoded } := (Except.ok.inj hf).symm
    obtain ⟨hlimit, hcounts⟩ := OperationBudget.nextDecoded_spec hop.counts hdecoded
    refine ⟨_, Machine.bind_of_ok hrun, ⟨?_, ?_, ?_, ?_, hop.underflow⟩, rfl, rfl⟩
    · rw [hbudget]
      exact hop.sameLimits
    · rw [hbudget]
      exact hop.kdfLimit
    · rw [hbudget]
      exact ⟨hop.within.metadata, hlimit, hop.within.kdf⟩
    · rw [hbudget]
      exact hcounts
  · right
    exact ⟨e, Machine.bind_of_error hrun⟩

theorem noteSubtraction_of_le {limit used : UInt64} (h : used ≤ limit) (history : History) :
    Operation.noteSubtraction limit used history = history := by
  unfold Operation.noteSubtraction
  rw [decide_eq_false (UInt64.not_lt.mpr h), Bool.or_false]

theorem decodedRemaining_run {op : Operation ω} (hop : op.budget.Within) :
    Operation.decodedRemaining op = (.ok op.budget.decodedRemaining, op) := by
  unfold Operation.decodedRemaining
  rw [Machine.bind_apply]
  dsimp only [Machine.get]
  cases hlimit : op.budget.limits.maxTotalDecodedBytes with
  | none => rfl
  | some limit =>
    have hnote := noteSubtraction_of_le (hop.decoded limit hlimit) op.history
    have hrun : (Operation.recordHistory (Operation.noteSubtraction limit op.budget.decoded) :
        OperationM ω Unit) op = (.ok (), op) := by
      unfold Operation.recordHistory Machine.modify
      dsimp only
      rw [hnote]
    exact Machine.bind_of_ok hrun

theorem metadataRemaining_run {op : Operation ω} (hop : op.budget.Within) :
    Operation.metadataRemaining op = (.ok op.budget.metadataRemaining, op) := by
  unfold Operation.metadataRemaining
  rw [Machine.bind_apply]
  dsimp only [Machine.get]
  have hrun : (Operation.recordHistory
      (Operation.noteSubtraction op.budget.limits.maxMetadataBytes op.budget.metadata) :
      OperationM ω Unit) op = (.ok (), op) := by
    unfold Operation.recordHistory Machine.modify
    dsimp only
    rw [noteSubtraction_of_le hop.metadata]
  exact Machine.bind_of_ok hrun

/-! What a reader can still give -/

def CheckedReader.Holds (reader : CheckedReader δ) (n : ℕ) : Prop :=
  ∃ remaining fin, reader.bound = some (remaining, fin) ∧ remaining ≤ n

def FolderReader.Holds (n : ℕ) : FolderReader δ → Prop
  | .Stream reader => reader.Holds n
  | .Buffered bytes => bytes.length ≤ n

variable (env : Environment ω δ)

theorem CheckedReader.read_cases (n : ℕ) (reader : CheckedReader δ) (outside : ω) {k : ℕ}
    (hholds : reader.Holds k) :
    (∃ bytes reader' outside', reader.read env n outside = (.ok bytes, reader', outside') ∧
      bytes.length ≤ n ∧ bytes.length ≤ k ∧ reader'.Holds (k - bytes.length)) ∨
    ∃ e reader' outside', reader.read env n outside = (.error e, reader', outside') ∧ reader'.Holds k := by
  obtain ⟨inner₀, bound⟩ := reader
  obtain ⟨remaining, fin, hbound, hk⟩ := hholds
  have hbound : bound = some (remaining, fin) := hbound
  subst hbound
  have hsame : ∀ inner, (⟨inner, some (remaining, fin)⟩ : CheckedReader δ).Holds k :=
    fun inner => ⟨remaining, fin, rfl, hk⟩
  unfold CheckedReader.read
  dsimp only
  split
  · exact .inl ⟨[], _, outside, rfl, Nat.zero_le _, Nat.zero_le _, hsame inner₀⟩
  · split
    · cases fin with
      | Sized => exact .inl ⟨[], _, outside, rfl, Nat.zero_le _, Nat.zero_le _, hsame inner₀⟩
      | Terminated =>
        rcases env.read 1 inner₀ outside with ⟨e | bytes, inner, outside'⟩
        · exact .inr ⟨e, _, outside', rfl, hsame inner⟩
        · dsimp only
          split
          · exact .inl ⟨[], _, outside', rfl, Nat.zero_le _, Nat.zero_le _, hsame inner⟩
          · exact .inr ⟨_, _, outside', rfl, hsame inner⟩
    · rcases env.read (min remaining n) inner₀ outside with ⟨e | bytes, inner, outside'⟩
      · exact .inr ⟨e, _, outside', rfl, hsame inner⟩
      · have hlength := bytes.property
        have hleft : ({ inner, bound := some (remaining - bytes.val.length, fin) } :
            CheckedReader δ).Holds (k - bytes.val.length) := ⟨_, fin, rfl, by omega⟩
        dsimp only
        split
        · exact .inr ⟨_, _, outside', rfl, ⟨_, fin, rfl, by omega⟩⟩
        · exact .inl ⟨bytes.val, _, outside', rfl, by omega, by omega, hleft⟩

theorem CheckedReader.read_length (n : ℕ) (reader reader' : CheckedReader δ) (outside outside' : ω)
    {bytes : List UInt8} (h : reader.read env n outside = (.ok bytes, reader', outside')) :
    bytes.length ≤ n := by
  cases hbound : reader.bound with
  | some bound =>
    obtain ⟨remaining, fin⟩ := bound
    rcases reader.read_cases env n outside ⟨remaining, fin, hbound, le_rfl⟩ with
      ⟨bytes', _, _, hrun, hle, -⟩ | ⟨e, _, _, hrun, -⟩
    · rw [hrun] at h
      cases h
      exact hle
    · rw [hrun] at h
      cases h
  | none =>
    unfold CheckedReader.read at h
    rw [hbound] at h
    dsimp only at h
    rcases hread : env.read n reader.inner outside with ⟨e | bytes', inner, outside''⟩
    · rw [hread] at h
      cases h
    · rw [hread] at h
      cases h
      exact bytes'.property

theorem FolderReader.read_length (n : ℕ) (reader reader' : FolderReader δ) (outside outside' : ω)
    {bytes : List UInt8} (h : reader.read env n outside = (.ok bytes, reader', outside')) :
    bytes.length ≤ n := by
  cases reader with
  | Stream reader =>
    unfold FolderReader.read at h
    dsimp only at h
    rcases hread : reader.read env n outside with ⟨e | bytes', inner, outside''⟩
    · rw [hread] at h
      cases h
    · rw [hread] at h
      cases h
      exact reader.read_length env n inner outside outside'' hread
  | Buffered buffer =>
    cases h
    exact List.length_take_le n buffer

theorem FolderReader.read_cases (n : ℕ) (reader : FolderReader δ) (outside : ω) {k : ℕ}
    (hholds : reader.Holds k) :
    (∃ bytes reader' outside', reader.read env n outside = (.ok bytes, reader', outside') ∧
      bytes.length ≤ k ∧ reader'.Holds (k - bytes.length)) ∨
    ∃ e reader' outside', reader.read env n outside = (.error e, reader', outside') ∧ reader'.Holds k := by
  cases reader with
  | Stream reader =>
    unfold FolderReader.read
    dsimp only
    rcases reader.read_cases env n outside hholds with
      ⟨bytes, reader', outside', hrun, -, hle, hleft⟩ | ⟨e, reader', outside', hrun, hleft⟩
    · exact .inl ⟨bytes, .Stream reader', outside', by rw [hrun], hle, hleft⟩
    · exact .inr ⟨e, .Stream reader', outside', by rw [hrun], hleft⟩
  | Buffered buffer =>
    have hk : buffer.length ≤ k := hholds
    refine .inl ⟨buffer.take n, .Buffered (buffer.drop n), outside, rfl, ?_, ?_⟩
    · rw [List.length_take]
      omega
    · show (buffer.drop n).length ≤ k - (buffer.take n).length
      rw [List.length_take, List.length_drop]
      omega

/-! Reads -/

/-- What was handed out, and the `more` bytes that are about to be, were charged; and so was what an
eagerly charged reader can still give. -/
structure Backed (limits : ResourceLimits) (eager : Bool) (reader : FolderReader δ) (op : Operation ω) (more : ℕ) : Prop where
  sound : op.Sound limits
  credit : ∃ credit, (eager = true → reader.Holds credit) ∧
    op.history.handed + more + credit ≤ op.history.charged

structure Operation.Solvent (limits : ResourceLimits) (op : Operation ω) : Prop where
  sound : op.Sound limits
  handed : op.history.handed ≤ op.history.charged

theorem Backed.steady {eager : Bool} {reader : FolderReader δ} {op op' : Operation ω} {more : ℕ}
    (h : Backed limits eager reader op more) (hsteady : Steady op op') : Backed limits eager reader op' more where
  sound := hsteady.sound h.sound
  credit := by
    rw [hsteady.handed, hsteady.charged]
    exact h.credit

theorem Backed.mono {eager : Bool} {reader : FolderReader δ} {op : Operation ω} {more less : ℕ}
    (h : Backed limits eager reader op more) (hle : less ≤ more) : Backed limits eager reader op less where
  sound := h.sound
  credit := by
    obtain ⟨credit, hholds, hcharged⟩ := h.credit
    exact ⟨credit, hholds, by omega⟩

theorem Backed.solvent {eager : Bool} {reader : FolderReader δ} {op : Operation ω} {more : ℕ}
    (h : Backed limits eager reader op more) : op.Solvent limits where
  sound := h.sound
  handed := by
    obtain ⟨credit, -, hcharged⟩ := h.credit
    omega

theorem Operation.Solvent.steady {op op' : Operation ω} (h : op.Solvent limits) (hsteady : Steady op op') :
    op'.Solvent limits where
  sound := hsteady.sound h.sound
  handed := by
    rw [hsteady.handed, hsteady.charged]
    exact h.handed

structure Covered (limits : ResourceLimits) (eager : Bool) (more : ℕ) (s : Reading ω δ) : Prop where
  charges : s.content.chargeBudget = !eager
  remaining : s.content.remaining < 2 ^ 64
  backed : Backed limits eager s.content.reader s.op more

section
variable {eager : Bool} {more : ℕ}

theorem Covered.mono {less : ℕ} {s : Reading ω δ} (h : Covered limits eager more s) (hle : less ≤ more) :
    Covered limits eager less s := ⟨h.charges, h.remaining, h.backed.mono hle⟩

theorem onOperation_covered {α : Type} {toIo : R7zError → IoError} {m : OperationM ω α}
    (hm : Moves Steady m) : Meets (Covered (δ := δ) limits eager more) (SubstreamReader.onOperation toIo m)
      (fun _ => Covered limits eager more) fun _ => Covered limits eager more := by
  intro s hs
  unfold SubstreamReader.onOperation
  have hsteady := hm s.op
  rcases hrun : m s.op with ⟨e | a, op'⟩
  · rw [hrun] at hsteady
    exact ⟨hs.charges, hs.remaining, hs.backed.steady hsteady⟩
  · rw [hrun] at hsteady
    exact ⟨hs.charges, hs.remaining, hs.backed.steady hsteady⟩

theorem count_covered (bytes : List UInt8) : Meets (Covered limits eager more) (SubstreamReader.count env bytes)
    (fun _ => Covered limits eager more) fun _ => Covered limits eager more := by
  refine Meets.get_bind fun s hs => Outcome.ite (fun _ => ?_) fun _ => hs
  refine Meets.bind (Q := fun _ => Covered limits eager more) (fun s hs => ?_) (fun _ => ?_) s hs
  · exact ⟨hs.charges, hs.remaining, hs.backed⟩
  · split
    · exact onOperation_covered (advance_steady env _)
    · exact Meets.pure fun _ hs => hs

theorem account_covered {bytes : List UInt8} (hbytes : bytes.length < 2 ^ 64) :
    Meets (Covered limits eager (if eager then bytes.length else 0)) (SubstreamReader.account env bytes)
      (fun _ => Covered limits eager bytes.length) fun _ => Covered limits eager 0 := by
  have hcount : Meets (Covered limits eager bytes.length) (SubstreamReader.count env bytes)
      (fun _ => Covered limits eager bytes.length) fun _ => Covered limits eager 0 :=
    (count_covered env bytes).mono (fun _ hs => hs) (fun _ _ hs => hs) fun _ _ hs =>
      hs.mono (Nat.zero_le _)
  refine Meets.bind (Q := fun _ => Covered limits eager (if eager then bytes.length else 0)) ?_ fun _ => ?_
  · intro s hs
    exact ⟨hs.charges, (Nat.sub_le _ _).trans_lt hs.remaining, hs.backed⟩
  refine Meets.get_bind fun s hs => ?_
  cases eager with
  | true =>
    refine Outcome.ite (fun h => ?_) fun _ => hcount s hs
    rw [hs.charges] at h
    cases h
  | false =>
    refine Outcome.ite (fun _ => ?_) fun h => absurd hs.charges h
    refine Meets.bind (Q := fun _ => Covered limits false bytes.length) (fun s hs => ?_) (fun _ => hcount) s hs
    have hlength : (UInt64.ofNat bytes.length).toNat = bytes.length :=
      UInt64.toNat_ofNat_of_lt' hbytes
    obtain ⟨credit, -, hcharged⟩ := hs.backed.credit
    rw [if_neg (by decide)] at hcharged
    unfold SubstreamReader.onOperation
    rcases @chargeDecoded_sound _ _ (UInt64.ofNat bytes.length) _ hs.backed.sound with
      ⟨op', hrun, hsound, htotal, hhanded⟩ | ⟨e, hrun⟩
    · rw [hrun]
      refine ⟨hs.charges, hs.remaining, hsound, 0, fun h => (by cases h), ?_⟩
      show op'.history.handed + bytes.length + 0 ≤ op'.history.charged
      rw [hhanded, htotal, hlength]
      omega
    · rw [hrun]
      exact ⟨hs.charges, hs.remaining, hs.backed⟩

/-- A read of the decoder; behind an eager charge it gives no more than was charged. -/
theorem readDecoder_covered (n : ℕ) : Meets (Covered limits eager 0) (SubstreamReader.readDecoder env n)
    (fun bytes s => bytes.length ≤ n ∧ Covered limits eager (if eager then bytes.length else 0) s)
    fun _ => Covered limits eager 0 := by
  intro s hs
  have hsteady := readFolder_steady env n s.content.reader s.op
  obtain ⟨credit, hholds, hcharged⟩ := hs.backed.credit
  unfold SubstreamReader.readDecoder
  rcases hrun : readFolder env n s.content.reader s.op with ⟨result, reader', op'⟩
  rw [hrun] at hsteady
  have hhanded : op'.history.handed = s.op.history.handed := hsteady.handed
  have htotal : op'.history.charged = s.op.history.charged := hsteady.charged
  have hsound : op'.Sound limits := hsteady.sound hs.backed.sound
  unfold readFolder at hrun
  cases eager with
  | false =>
    have hcovered : Covered limits false 0 ({ content := { s.content with reader := reader' }, op := op' } :
        Reading ω δ) := by
      refine ⟨hs.charges, hs.remaining, hsound, credit, fun h => (by cases h), ?_⟩
      show op'.history.handed + 0 + credit ≤ op'.history.charged
      rw [hhanded, htotal]
      exact hcharged
    rcases hread : s.content.reader.read env n s.op.outside with ⟨e | bytes, inner, outside'⟩
    · rw [hread] at hrun
      cases hrun
      exact hcovered
    · rw [hread] at hrun
      cases hrun
      exact ⟨s.content.reader.read_length env n _ s.op.outside _ hread, hcovered⟩
  | true =>
    rcases s.content.reader.read_cases env n s.op.outside (hholds rfl) with
      ⟨bytes, inner, outside', hread, hle, hleft⟩ | ⟨e, inner, outside', hread, hleft⟩
    · rw [hread] at hrun
      cases hrun
      refine ⟨s.content.reader.read_length env n _ s.op.outside _ hread, hs.charges,
        hs.remaining, hsound, credit - bytes.length, fun _ => hleft, ?_⟩
      rw [if_pos rfl, hhanded, htotal]
      omega
    · rw [hread] at hrun
      cases hrun
      refine ⟨hs.charges, hs.remaining, hsound, credit, fun _ => hleft, ?_⟩
      show _ + 0 + credit ≤ _
      rw [hhanded, htotal]
      exact hcharged

theorem readWithin_covered (limit : ℕ) :
    Meets (fun s => Covered limits eager 0 s ∧ limit ≤ s.content.remaining)
      (SubstreamReader.readWithin env limit) (fun bytes => Covered limits eager bytes.length)
      fun _ => Covered limits eager 0 := by
  refine Meets.get_bind fun s ⟨hs, hlimit⟩ => ?_
  have hsize : s.op.budget.monitor.bufferSize limit ≤ limit := by
    unfold OperationMonitor.bufferSize
    split
    · exact Nat.min_le_left _ _
    · exact le_rfl
  have hremaining := hs.remaining
  refine Meets.bind (readDecoder_covered env _) (fun bytes s' hs' => ?_) s hs
  refine Outcome.ite (fun _ => hs'.2.mono (Nat.zero_le _)) fun _ => ?_
  have hbytes : bytes.length < 2 ^ 64 := by
    have := hs'.1
    omega
  refine Meets.bind (account_covered env hbytes) (fun _ => ?_) s' hs'.2
  exact fun _ hs => hs

theorem read_covered (n : ℕ) : Meets (Covered limits eager 0) (SubstreamReader.read env n)
    (fun bytes => Covered limits eager bytes.length) fun _ => Covered limits eager 0 := by
  refine Meets.bind (onOperation_covered (check_steady env)) fun _ => ?_
  refine Meets.get_bind fun s hs => Outcome.ite (fun _ => hs) fun _ => ?_
  have hrun : SubstreamReader.onOperation readIoError Operation.decodedRemaining s =
      (.ok s.op.budget.decodedRemaining, s) := by
    unfold SubstreamReader.onOperation
    rw [decodedRemaining_run hs.backed.sound.within]
  rw [Machine.bind_of_ok hrun]
  refine Outcome.ite (fun _ => ?_) fun _ => ?_
  · exact ⟨hs.charges, hs.remaining, hs.backed⟩
  · cases s.content.allowed s.op.budget.decodedRemaining with
    | none => exact readWithin_covered env _ s ⟨hs, Nat.min_le_left _ _⟩
    | some allowed =>
      exact readWithin_covered env _ s ⟨hs, (Nat.min_le_left _ _).trans (Nat.min_le_left _ _)⟩

theorem Covered.noteHanded {s : Reading ω δ} {bytes : List UInt8} (h : Covered limits eager bytes.length s)
    (size : ℕ) : Covered limits eager 0
      { s with op := { s.op with history := noteHanded size bytes s.op.history } } := by
  have hcharged : (R7z.noteHanded size bytes s.op.history).charged = s.op.history.charged := by
    unfold R7z.noteHanded
    split <;> rfl
  have hunderflow : (R7z.noteHanded size bytes s.op.history).underflow = s.op.history.underflow := by
    unfold R7z.noteHanded
    split <;> rfl
  obtain ⟨credit, hholds, hcredit⟩ := h.backed.credit
  have hhanded := handed_noteHanded size bytes s.op.history
  refine ⟨h.charges, h.remaining, h.backed.sound.history hcharged hunderflow, credit, hholds, ?_⟩
  show (R7z.noteHanded size bytes s.op.history).handed + 0 + credit ≤
    (R7z.noteHanded size bytes s.op.history).charged
  rw [hcharged]
  omega

theorem run_covered (consumer : Consumer κ) : ∀ s : Reading ω δ, Covered limits eager 0 s →
    Covered limits eager 0 (consumer.run env s).2 := by
  induction consumer with
  | done result => exact fun s hs => hs
  | read size next ih =>
    intro s hs
    unfold Consumer.run
    have hout := read_covered env size s hs
    rcases hrun : SubstreamReader.read env size s with ⟨e | bytes, s'⟩
    · rw [hrun] at hout
      exact ih _ s' hout
    · rw [hrun] at hout
      exact ih _ _ (Covered.noteHanded hout size)

theorem Covered.noteInvoked {s : Reading ω δ} (h : Covered limits eager 0 s) (entry : ℕ) :
    Covered limits eager 0
      { s with op := { s.op with history := noteInvoked entry s.op.history } } := by
  obtain ⟨credit, hholds, hcharged⟩ := h.backed.credit
  refine ⟨h.charges, h.remaining, h.backed.sound.history rfl rfl, credit, hholds, ?_⟩
  show (R7z.noteInvoked entry s.op.history).handed + 0 + credit ≤ s.op.history.charged
  rw [handed_noteInvoked]
  exact hcharged

theorem invoke_covered (consumer : Consumer κ) (entry : ℕ) (s : Reading ω δ) (hs : Covered limits eager 0 s) :
    Covered limits eager 0 (consumer.invoke env entry s).2 :=
  run_covered env consumer _ (hs.noteInvoked entry)

theorem drain_covered : ∀ turns, Meets (Covered limits eager 0) (SubstreamReader.drain env turns)
    (fun _ => Covered limits eager 0) fun _ => Covered limits eager 0
  | 0 => Meets.fail fun _ hs => hs
  | turns + 1 => by
    have hread : Meets (Covered limits eager 0) (SubstreamReader.read env 8192) (fun _ => Covered limits eager 0)
        fun _ => Covered limits eager 0 :=
      (read_covered env 8192).post fun _ _ hs => hs.mono (Nat.zero_le _)
    refine Meets.bind hread.attempt fun result => ?_
    · rcases result with e | bytes
      · cases e with
        | interrupted => exact drain_covered turns
        | _ => exact Meets.fail fun _ hs => hs
      · dsimp only
        split
        · exact Meets.pure fun _ hs => hs
        · exact drain_covered turns

end

end

end R7z
