import R7z.Decode.Balance

/-! Output that is charged before it is decoded: the size that is charged is the size that the reader at
the end of the chain is checked against. -/

namespace R7z

open Effect Effect.Machine

def Chained : OutputSize → List DecodeStep → Prop
  | _, [] => True
  | input, step :: steps =>
    (step.coder.preservesSize = true → ∀ size, input = .Known size → step.output = .Known size) ∧
      Chained step.output steps

def endOutput (input : OutputSize) (steps : List DecodeStep) : OutputSize :=
  steps.foldl (fun _ step => step.output) input

theorem bindSize_spec {coder : SizedCoder} {input : OutputSize} {step : DecodeStep}
    (h : coder.bindSize input = .ok step) : step.coder = coder.coder ∧
      (coder.coder.preservesSize = true → coder.output.reconcile input = .ok step.output) := by
  unfold SizedCoder.bindSize at h
  dsimp only at h
  split at h
  · obtain ⟨output, houtput, h⟩ := Wire.except_bind_eq_ok.mp h
    cases h
    exact ⟨rfl, fun _ => houtput⟩
  · rename_i hpreserves
    cases h
    exact ⟨rfl, fun h => absurd h hpreserves⟩

theorem bindChain_chained : ∀ {coders : List SizedCoder} {input : OutputSize} {steps : List DecodeStep},
    bindChain input coders = .ok steps → Chained input steps
  | [], _, _, h => by
    cases h
    exact trivial
  | coder :: coders, input, steps, h => by
    obtain ⟨bound, hbound, h⟩ := Wire.except_bind_eq_ok.mp h
    obtain ⟨rest, hrest, h⟩ := Wire.except_bind_eq_ok.mp h
    cases h
    refine ⟨fun hpreserves size hsize => ?_, bindChain_chained hrest⟩
    obtain ⟨hcoder, houtput⟩ := bindSize_spec hbound
    rw [hcoder] at hpreserves
    have houtput := houtput hpreserves
    rw [hsize] at houtput
    cases hknown : coder.output with
    | Unknown =>
      rw [hknown] at houtput
      exact (Except.ok.inj houtput).symm
    | Known declared =>
      rw [hknown] at houtput
      unfold OutputSize.reconcile at houtput
      dsimp only at houtput
      split at houtput
      · cases houtput
      · rename_i heq
        rw [← not_ne_iff.mp heq]
        exact (Except.ok.inj houtput).symm

theorem endOutput_chained : ∀ {steps : List DecodeStep} {input : OutputSize} {size : UInt64},
    Chained input steps → (∀ step ∈ steps, step.coder.preservesSize = true) → input = .Known size →
      endOutput input steps = .Known size
  | [], _, _, _, _, hinput => hinput
  | step :: steps, input, size, hchained, hpreserves, hinput => by
    have hstep : step.output = .Known size := hchained.1 (hpreserves step (List.mem_cons_self ..)) size hinput
    have hlater : ∀ later ∈ steps, later.coder.preservesSize = true :=
      fun later hlater => hpreserves later (List.mem_cons_of_mem _ hlater)
    exact @endOutput_chained steps step.output size hchained.2 hlater hstep

theorem Chained.of_append : ∀ {before after : List DecodeStep} {input : OutputSize},
    Chained input (before ++ after) → Chained (endOutput input before) after
  | [], _, _, h => h
  | step :: before, after, _, h => @Chained.of_append before after step.output h.2

theorem eager_endOutput {steps : List DecodeStep} {input : OutputSize} (hchained : Chained input steps)
    {δ : Type} {reader : δ} {size : UInt64}
    (h : (ReadyDecoder.mk (.Chain steps reader)).eagerOutputSize = some size) :
    ∀ input, endOutput input steps = .Known size := by
  intro start
  obtain ⟨⟨step, index⟩, hmem, hfound⟩ := List.exists_of_findSome?_eq_some h
  have hget : steps[index]? = some step :=
    List.mem_zipIdx_iff_getElem?.mp (List.mem_reverse.mp hmem)
  dsimp only at hfound
  split at hfound
  · rename_i houtput
    split at hfound
    · rename_i hpreserves
      cases hfound
      obtain ⟨hlt, hstep⟩ := List.getElem?_eq_some_iff.mp hget
      have hsplit : steps = steps.take index ++ step :: steps.drop (index + 1) := by
        rw [← hstep, List.getElem_cons_drop, List.take_append_drop]
      have hdrop : Chained step.output (steps.drop (index + 1)) := by
        rw [hsplit] at hchained
        exact hchained.of_append.2
      have hend := endOutput_chained hdrop (List.all_eq_true.mp hpreserves) houtput
      rw [hsplit]
      unfold endOutput
      rw [List.foldl_append, List.foldl_cons]
      exact hend
    · cases hfound
  · cases hfound

def Topology.Chained : Topology → Prop
  | .Chain steps => ∃ input, R7z.Chained input steps
  | .Bcj2 _ _ _ _ _ outputSize => outputSize < 2 ^ 64

def ReadyDecoder.Chained {δ : Type} (decoder : ReadyDecoder δ) : Prop :=
  match decoder.topology with
  | .Chain steps _ => ∃ input, R7z.Chained input steps
  | .Bcj2 _ _ _ _ outputSize => outputSize < 2 ^ 64

section
variable {ω δ : Type} (env : Environment ω δ)

theorem planTopology_chained {folder : Folder} {graph : FolderGraph} {unpackSize : UInt64}
    {sizes : CoderOutputSizes} {packedSizes : List UInt64} {topology : Topology} {memory : ℕ}
    (h : planTopology env folder graph unpackSize sizes packedSizes = .ok (topology, memory)) :
    topology.Chained := by
  unfold planTopology at h
  split at h
  · cases h
  split at h
  · cases h
  obtain ⟨decoders, -, h⟩ := Wire.except_bind_eq_ok.mp h
  cases decoders with
  | Chain =>
    obtain ⟨steps, hsteps, h⟩ := Wire.except_bind_eq_ok.mp h
    obtain ⟨_, -, h⟩ := Wire.except_bind_eq_ok.mp h
    cases h
    unfold chainSteps at hsteps
    split at hsteps
    · obtain ⟨sized, -, hsteps⟩ := Wire.except_bind_eq_ok.mp hsteps
      exact ⟨_, bindChain_chained hsteps⟩
    · cases hsteps
  | Bcj2 layout =>
    unfold bcj2Steps at h
    obtain ⟨outputSize, hsize, h⟩ := Wire.except_bind_eq_ok.mp h
    have houtput : outputSize < 2 ^ 64 := by
      unfold bcj2OutputSize at hsize
      split at hsize
      · cases hsize
      · cases hsize
        exact unpackSize.toNat_lt
    dsimp only at h
    obtain ⟨_, -, h⟩ := Wire.except_bind_eq_ok.mp h
    obtain ⟨_, -, h⟩ := Wire.except_bind_eq_ok.mp h
    obtain ⟨_, -, h⟩ := Wire.except_bind_eq_ok.mp h
    obtain ⟨_, -, h⟩ := Wire.except_bind_eq_ok.mp h
    obtain ⟨_, -, h⟩ := Wire.except_bind_eq_ok.mp h
    obtain ⟨_, -, h⟩ := Wire.except_bind_eq_ok.mp h
    obtain ⟨_, -, h⟩ := Wire.except_bind_eq_ok.mp h
    obtain ⟨_, -, h⟩ := Wire.except_bind_eq_ok.mp h
    obtain ⟨_, -, h⟩ := Wire.except_bind_eq_ok.mp h
    obtain ⟨_, -, h⟩ := Wire.except_bind_eq_ok.mp h
    split at h
    · cases h
    obtain ⟨_, -, h⟩ := Wire.except_bind_eq_ok.mp h
    obtain ⟨_, -, h⟩ := Wire.except_bind_eq_ok.mp h
    obtain ⟨_, -, h⟩ := Wire.except_bind_eq_ok.mp h
    obtain ⟨_, -, h⟩ := Wire.except_bind_eq_ok.mp h
    cases h
    exact houtput

theorem DecoderPlan.bind_chained {plan : DecoderPlan} {inputs : List (δ × ℕ)} {decoder : ReadyDecoder δ}
    (hplan : plan.topology.Chained) (h : plan.bind inputs = .ok decoder) : decoder.Chained := by
  unfold DecoderPlan.bind at h
  split at h
  · cases h
  split at h
  · cases h
  dsimp only at h
  split at h
  · rename_i steps htopology
    obtain ⟨_, -, h⟩ := Wire.except_bind_eq_ok.mp h
    cases h
    rw [htopology] at hplan
    exact hplan
  · rename_i htopology
    obtain ⟨_, -, h⟩ := Wire.except_bind_eq_ok.mp h
    obtain ⟨_, -, h⟩ := Wire.except_bind_eq_ok.mp h
    obtain ⟨_, -, h⟩ := Wire.except_bind_eq_ok.mp h
    obtain ⟨_, -, h⟩ := Wire.except_bind_eq_ok.mp h
    cases h
    rw [htopology] at hplan
    exact hplan

theorem FolderLayout.bind_chained {folder : FolderLayout} {packs : PackedSource}
    {ready : ReadyFolder δ} {op op' : Operation ω} (h : folder.bind env packs op = (.ok ready, op')) :
    ready.decoder.Chained ∧ ready.folder = folder := by
  obtain ⟨plan, op₁, hplan, h⟩ := Machine.bind_eq_ok.mp h
  obtain ⟨inputs, op₂, -, h⟩ := Machine.bind_eq_ok.mp h
  obtain ⟨decoder, op₃, hdecoder, h⟩ := Machine.bind_eq_ok.mp h
  cases h
  obtain ⟨sizes, op₄, -, hplan⟩ := Machine.bind_eq_ok.mp hplan
  obtain ⟨⟨topology, memory⟩, op₅, htopology, hplan⟩ := Machine.bind_eq_ok.mp hplan
  obtain ⟨_, op₆, -, hplan⟩ := Machine.bind_eq_ok.mp hplan
  cases hplan
  exact ⟨DecoderPlan.bind_chained (planTopology_chained env (Prod.mk.inj htopology).1)
    (Prod.mk.inj hdecoder).1, rfl⟩

/-! The reader that is started -/

theorem openSteps_bound (password : Option String) : ∀ {steps : List DecodeStep} {input : OutputSize}
    {reader reader' : CheckedReader δ} {op op' : Operation ω},
    openSteps env password steps reader op = (.ok reader', op') →
    (∀ size, input = .Known size → ∃ fin, reader.bound = some (size.toNat, fin)) →
      ∀ size, endOutput input steps = .Known size → ∃ fin, reader'.bound = some (size.toNat, fin)
  | [], _, _, _, _, _, h, hreader => by
    cases h
    exact hreader
  | step :: steps, input, reader, reader', op, op', h, hreader => by
    obtain ⟨middle, op₁, hmiddle, h⟩ := Machine.bind_eq_ok.mp h
    have hmiddle_bound : ∀ size, step.output = .Known size →
        ∃ fin, middle.bound = some (size.toNat, fin) := ?_
    · have hrest := openSteps_bound password h hmiddle_bound
      exact hrest
    intro size hsize
    obtain ⟨_, op₂, -, hmiddle⟩ := Machine.bind_eq_ok.mp hmiddle
    obtain ⟨inner, op₃, -, hmiddle⟩ := Machine.bind_eq_ok.mp hmiddle
    rw [hsize] at hmiddle
    cases hmiddle
    exact ⟨_, rfl⟩

theorem start_holds {decoder : ReadyDecoder δ} (hchained : decoder.Chained) {password : Option String}
    {size : UInt64} (heager : decoder.eagerOutputSize = some size) {reader : FolderReader δ}
    {op op' : Operation ω} (h : decoder.start env password op = (.ok reader, op')) :
    reader.Holds size.toNat := by
  obtain ⟨topology⟩ := decoder
  cases topology with
  | Chain steps inner =>
    obtain ⟨input, hchained⟩ := hchained
    obtain ⟨checked, op₁, hopen, h⟩ := Machine.bind_eq_ok.mp h
    cases h
    have hinput : ∀ size, OutputSize.Unknown = .Known size →
        ∃ fin, ({ inner := inner, bound := none } : CheckedReader δ).bound = some (size.toNat, fin) :=
      fun _ hsize => by cases hsize
    obtain ⟨fin, hbound⟩ := openSteps_bound env password hopen hinput size
      (eager_endOutput hchained heager .Unknown)
    exact ⟨size.toNat, fin, hbound, le_rfl⟩
  | Bcj2 main call jump control outputSize =>
    have hsize : outputSize < 2 ^ 64 := hchained
    have hcharged : size.toNat = outputSize := by
      rw [← Option.some.inj heager]
      exact UInt64.toNat_ofNat_of_lt' hsize
    obtain ⟨_, _, -, h⟩ := Machine.bind_eq_ok.mp h
    obtain ⟨_, _, -, h⟩ := Machine.bind_eq_ok.mp h
    obtain ⟨_, _, -, h⟩ := Machine.bind_eq_ok.mp h
    obtain ⟨_, _, -, h⟩ := Machine.bind_eq_ok.mp h
    obtain ⟨_, _, -, h⟩ := Machine.bind_eq_ok.mp h
    obtain ⟨_, _, -, h⟩ := Machine.bind_eq_ok.mp h
    obtain ⟨⟨output, _⟩, op₁, -, h⟩ := Machine.bind_eq_ok.mp h
    dsimp only at h
    split at h
    · cases h
    · rename_i hlength
      obtain ⟨_, _, -, h⟩ := Machine.bind_eq_ok.mp h
      obtain ⟨_, _, -, h⟩ := Machine.bind_eq_ok.mp h
      cases h
      show output.length ≤ size.toNat
      rw [hcharged, not_ne_iff.mp hlength]

end

end R7z
