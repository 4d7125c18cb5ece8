import R7z.Decode.ActiveFolder

/-! What one call can do to an operation: a look at the monitor, a charge, a read of the decoder. -/

namespace R7z

open Effect Effect.Machine

def KdfBudget.Within (budget : KdfBudget) : Prop := ∀ limit, budget.limit = some limit → budget.used ≤ limit

namespace OperationBudget

structure Within (budget : OperationBudget) : Prop where
  metadata : budget.metadata ≤ budget.limits.maxMetadataBytes
  decoded : ∀ limit, budget.limits.maxTotalDecodedBytes = some limit → budget.decoded ≤ limit
  kdf : budget.kdf.Within

/-- The counter of decoded bytes says what was charged, as far as it can count without a limit. -/
def Counts (budget : OperationBudget) (charged : ℕ) : Prop :=
  match budget.limits.maxTotalDecodedBytes with
  | none => budget.decoded.toNat = min charged (2 ^ 64 - 1)
  | some _ => budget.decoded.toNat = charged

variable {budget : OperationBudget}

theorem new_within (limits : ResourceLimits) (hasControl : Bool) :
    (OperationBudget.new limits hasControl).Within :=
  ⟨UInt64.zero_le, fun _ _ => UInt64.zero_le, fun _ _ => UInt64.zero_le⟩

theorem new_counts (limits : ResourceLimits) (hasControl : Bool) :
    (OperationBudget.new limits hasControl).Counts 0 := by
  unfold Counts
  split
  · exact (Nat.zero_min _).symm
  · rfl

theorem toNat_add_of_lt {a b : UInt64} (h : a.toNat + b.toNat < 2 ^ 64) :
    (a + b).toNat = a.toNat + b.toNat := by
  rw [UInt64.toNat_add]
  exact Nat.mod_eq_of_lt h

theorem decodedRemaining_toNat (h : budget.Within) {limit : UInt64}
    (hlimit : budget.limits.maxTotalDecodedBytes = some limit) :
    budget.decodedRemaining = some (limit - budget.decoded) ∧
      (limit - budget.decoded).toNat = limit.toNat - budget.decoded.toNat := by
  unfold decodedRemaining
  rw [hlimit]
  exact ⟨rfl, UInt64.toNat_sub_of_le _ _ (h.decoded limit hlimit)⟩

theorem metadataRemaining_toNat (h : budget.Within) : budget.metadataRemaining.toNat =
    budget.limits.maxMetadataBytes.toNat - budget.metadata.toNat :=
  UInt64.toNat_sub_of_le _ _ h.metadata

theorem nextDecoded_spec {charged : ℕ} (hcounts : budget.Counts charged) {bytes next : UInt64}
    (h : budget.nextDecoded bytes = .ok next) :
    (∀ limit, budget.limits.maxTotalDecodedBytes = some limit → next ≤ limit) ∧
      ({ budget with decoded := next } : OperationBudget).Counts (charged + bytes.toNat) := by
  unfold nextDecoded at h
  unfold Counts at hcounts ⊢
  cases hlimit : budget.limits.maxTotalDecodedBytes with
  | none =>
    rw [hlimit] at h hcounts
    refine ⟨fun _ hsome => (by cases hsome), ?_⟩
    dsimp only at h hcounts ⊢
    split at h
    · rename_i hlt
      cases h
      rw [toNat_add_of_lt hlt]
      omega
    · cases h
      rw [UInt64.toNat_ofNat_of_lt' (by decide)]
      omega
  | some limit =>
    rw [hlimit] at h hcounts
    dsimp only at h hcounts ⊢
    split at h
    · rename_i hlt
      split at h
      · cases h
      · rename_i hle
        cases h
        rw [toNat_add_of_lt hlt, hcounts]
        refine ⟨fun _ hsome => ?_, rfl⟩
        cases hsome
        simpa using hle
    · cases h

theorem nextDecoded_of_fits (h : budget.Within) {bytes : UInt64}
    (hfits : ∀ remaining, budget.decodedRemaining = some remaining → bytes.toNat ≤ remaining.toNat) :
    ∃ next, budget.nextDecoded bytes = .ok next := by
  unfold nextDecoded
  cases hlimit : budget.limits.maxTotalDecodedBytes with
  | none =>
    split
    · exact ⟨_, rfl⟩
    · exact ⟨_, rfl⟩
  | some limit =>
    obtain ⟨hremaining, htoNat⟩ := decodedRemaining_toNat h hlimit
    have hbytes := hfits _ hremaining
    rw [htoNat] at hbytes
    have hdecoded := UInt64.le_iff_toNat_le.mp (h.decoded limit hlimit)
    have hbound := limit.toNat_lt
    have hlt : budget.decoded.toNat + bytes.toNat < 2 ^ 64 := by omega
    have hle : ¬limit < budget.decoded + bytes := by
      rw [UInt64.lt_iff_toNat_lt, toNat_add_of_lt hlt]
      omega
    refine ⟨budget.decoded + bytes, ?_⟩
    rw [if_pos hlt, if_neg]
    simpa using hle

theorem chargeMetadata_spec {bytes : UInt64} {budget' : OperationBudget}
    (h : budget.chargeMetadata bytes = .ok budget') :
    budget' = { budget with metadata := budget.metadata + bytes } ∧
      (budget.metadata + bytes).toNat = budget.metadata.toNat + bytes.toNat ∧
      budget.metadata + bytes ≤ budget.limits.maxMetadataBytes := by
  unfold chargeMetadata at h
  split at h
  · rename_i hlt
    split at h
    · cases h
    · rename_i hle
      cases h
      exact ⟨rfl, toNat_add_of_lt hlt, UInt64.not_lt.mp hle⟩
  · cases h

theorem chargeKdfCycles_spec {cycles : UInt64} {budget' : OperationBudget}
    (h : budget.chargeKdfCycles cycles = .ok budget') :
    ∃ kdf, budget' = { budget with kdf } ∧ kdf.limit = budget.kdf.limit ∧ kdf.Within := by
  obtain ⟨kdf, hkdf, h⟩ := Wire.except_bind_eq_ok.mp h
  obtain ⟨used, hused, hkdf⟩ := Wire.except_bind_eq_ok.mp hkdf
  cases hkdf
  cases h
  refine ⟨{ budget.kdf with used }, rfl, rfl, fun limit hlimit => ?_⟩
  have hlimit : budget.kdf.limit = some limit := hlimit
  rw [hlimit] at hused
  unfold nextTotal at hused
  dsimp only at hused
  split at hused
  · rename_i hle
    cases hused
    exact hle.2
  · cases hused

end OperationBudget

section
variable {ω δ : Type}

/-- A look at the monitor: the counters and the record stay, and a cancellation is for good. -/
structure Polled (op op' : Operation ω) : Prop where
  budget : op'.budget = { op.budget with monitor := op'.budget.monitor }
  control : op'.budget.monitor.hasControl = op.budget.monitor.hasControl
  history : op'.history = op.history
  cancelled : op.cancelled = true → op'.cancelled = true

theorem Polled.refl (op : Operation ω) : Polled op op := ⟨rfl, rfl, rfl, fun h => h⟩

theorem Polled.trans {op op' op'' : Operation ω} (h : Polled op op') (h' : Polled op' op'') :
    Polled op op'' where
  budget := by rw [h'.budget, h.budget]
  control := h'.control.trans h.control
  history := h'.history.trans h.history
  cancelled := fun hc => h'.cancelled (h.cancelled hc)

def Operation.Controlled (op : Operation ω) : Prop :=
  op.budget.monitor.hasControl = false → op.cancelled = false

theorem Polled.within {op op' : Operation ω} (h : Polled op op') (hop : op.budget.Within) :
    op'.budget.Within := by
  rw [h.budget]
  exact ⟨hop.metadata, hop.decoded, hop.kdf⟩

theorem Polled.counts {op op' : Operation ω} (h : Polled op op') {charged : ℕ}
    (hop : op.budget.Counts charged) : op'.budget.Counts charged := by
  rw [h.budget]
  exact hop

variable (env : Environment ω δ)

theorem check_cases (op : Operation ω) : ∃ op', Polled op op' ∧
    (op.Controlled → op'.Controlled) ∧
      ((check env op = (.ok (), op') ∧ (op.Controlled → op'.cancelled = false)) ∨
        check env op = (.error .cancelled, op') ∧ op'.cancelled = true) := by
  unfold check
  rw [Machine.bind_apply]
  dsimp only [Machine.get]
  cases hcontrol : op.budget.monitor.hasControl with
  | false =>
    refine ⟨op, Polled.refl op, fun h => h, .inl ⟨rfl, fun h => h hcontrol⟩⟩
  | true =>
    rw [if_pos rfl]
    refine ⟨{ op with outside := (env.cancels op.outside).2,
                      cancelled := op.cancelled || (env.cancels op.outside).1 }, ?_, ?_, ?_⟩
    · exact ⟨rfl, rfl, rfl, fun h => by rw [h]; rfl⟩
    · exact fun _ h => absurd (hcontrol.symm.trans h) (by decide)
    · have hrun : (do
          let asked ← Operation.external fun outside => (.ok (env.cancels outside).1, (env.cancels outside).2)
          modify fun op => { op with cancelled := op.cancelled || asked }
          let op ← get
          if op.cancelled = true then fail .cancelled else pure () : OperationM ω Unit) op =
          (if (op.cancelled || (env.cancels op.outside).1) = true then fail .cancelled
            else pure () : OperationM ω Unit)
            { op with outside := (env.cancels op.outside).2,
                      cancelled := op.cancelled || (env.cancels op.outside).1 } := rfl
      rw [hrun]
      cases op.cancelled || (env.cancels op.outside).1 with
      | false => exact .inl ⟨rfl, fun _ => rfl⟩
      | true => exact .inr ⟨rfl, rfl⟩

theorem advance_cases (bytes : ℕ) (op : Operation ω) : ∃ op', Polled op op' ∧
    (op.Controlled → op'.Controlled) ∧
      (advance env bytes op = (.ok (), op') ∨
        advance env bytes op = (.error .cancelled, op') ∧ op'.cancelled = true) := by
  unfold advance
  rw [Machine.bind_apply]
  dsimp only [Machine.get]
  by_cases hcontrol : op.budget.monitor.hasControl = true
  · rw [if_pos hcontrol]
    have hnever : ∀ {op' : Operation ω}, Polled op op' → op'.Controlled := by
      intro op' hpolled hfalse
      rw [hpolled.control, hcontrol] at hfalse
      cases hfalse
    have hcheck : ∀ middle, Polled op middle →
        ∃ op', Polled op op' ∧ (op.Controlled → op'.Controlled) ∧
          (check env middle = (.ok (), op') ∨
            check env middle = (.error .cancelled, op') ∧ op'.cancelled = true) := by
      intro middle hmiddle
      obtain ⟨op', hpolled, -, hrun⟩ := check_cases env middle
      refine ⟨op', hmiddle.trans hpolled, fun _ => hnever (hmiddle.trans hpolled), ?_⟩
      exact hrun.imp And.left id
    split
    · exact hcheck { op with
        budget := { op.budget with monitor := { op.budget.monitor with
          processed := saturatingAdd op.budget.monitor.processed (UInt64.ofNat bytes)
          reported := saturatingAdd op.budget.monitor.processed (UInt64.ofNat bytes) } }
        outside := (env.progress
          (saturatingAdd op.budget.monitor.processed (UInt64.ofNat bytes)) op.outside).2
        cancelled := op.cancelled || (env.progress
          (saturatingAdd op.budget.monitor.processed (UInt64.ofNat bytes)) op.outside).1 }
        ⟨rfl, rfl, rfl, fun h => by dsimp only; rw [h]; rfl⟩
    · exact hcheck { op with
        budget := { op.budget with monitor := { op.budget.monitor with
          processed := saturatingAdd op.budget.monitor.processed (UInt64.ofNat bytes) } } }
        ⟨rfl, rfl, rfl, fun h => h⟩
  · rw [if_neg hcontrol]
    exact ⟨op, Polled.refl op, fun h => h, .inl rfl⟩

end

end R7z
