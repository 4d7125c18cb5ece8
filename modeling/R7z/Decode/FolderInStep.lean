import R7z.Charges
import R7z.Decode.InStep
import R7z.LayoutPartition

/-! An open folder and its decoder: the substreams that were left behind are in the output, and their
checksums were compared; a folder that is finished was decoded to its end. -/

namespace R7z

open Effect Effect.Machine

def DecoderRun.slice (run : DecoderRun) (stream : Substream) : List UInt8 :=
  (run.output.drop stream.start).take (stream.stop - stream.start)

/-- The decoder gave the whole of the substream, and its checksum is right when there is one. -/
structure DecoderRun.Matched (crc32 : List UInt8 → UInt32) (run : DecoderRun) (stream : Substream) : Prop where
  stop : stream.stop ≤ run.output.length
  digest : ∀ crc, stream.digest = some crc → crc32 (run.slice stream) = crc

/-- What the callback of an entry was given is the front of the entry's substream, and all of it when it
came to an end. -/
structure CallbackRun.Given (crc32 : List UInt8 → UInt32) (stream : Substream) (run : DecoderRun)
    (callback : CallbackRun) : Prop where
  matched : run.Matched crc32 stream
  bytes : callback.bytes <+: run.slice stream
  ended : (∃ size, 0 < size ∧ (size, []) ∈ callback.handed) → callback.bytes = run.slice stream

/-- The decoder gave exactly the output of its folder and then came to its end, and all checksums that
there are were right. -/
structure DecoderRun.Verified (crc32 : List UInt8 → UInt32) (run : DecoderRun) : Prop where
  length : run.output.length = run.folder.unpackSize.toNat
  ended : run.reads.getLast? = some []
  substreams : ∀ stream ∈ run.folder.substreams.toList, run.Matched crc32 stream
  digest : ∀ crc, run.folder.crc = some crc → crc32 run.output = crc

def FolderLayout.Cut (folder : FolderLayout) : Prop :=
  ∀ stream ∈ folder.substreams.toList, stream.stop ≤ folder.unpackSize.toNat

theorem FolderLayout.Cut.stop_lt {folder : FolderLayout} (h : folder.Cut) {stream : Substream}
    (hstream : stream ∈ folder.substreams.toList) : stream.stop < 2 ^ 64 :=
  (h stream hstream).trans_lt folder.unpackSize.toNat_lt

theorem FolderPlans.Takes.cut {plans after : FolderPlans} {folder : FolderLayout}
    (h : plans.Takes folder after) : folder.Cut := by
  intro stream hstream
  have hsome : folder.layout.len ≠ 0 := by
    intro hzero
    have hlength := folder.substreams.length_toList
    have hremaining : folder.substreams.remaining = 0 := by
      change folder.layout.len - 0 = 0
      rw [hzero]
    rw [hremaining] at hlength
    rw [List.length_eq_zero_iff.mp hlength] at hstream
    cases hstream
  exact ((h.substreams_tiles hsome).bounds _ (List.mem_map_of_mem hstream)).2.2

theorem Substreams.next_spec {streams rest : Substreams} {stream : Substream}
    (h : streams.next = some (stream, rest)) : stream.start = streams.offset ∧
      stream.start ≤ stream.stop ∧ rest.layout = streams.layout ∧
      rest.position = streams.position + 1 ∧ rest.offset = stream.stop := by
  unfold Substreams.next at h
  split at h
  · cases h
  split at h
  · cases h
  · cases h
    exact ⟨rfl, Nat.le_add_right _ _, rfl, rfl, rfl⟩

namespace DecoderRun.Matched

variable {crc32 : List UInt8 → UInt32} {run run' : DecoderRun} {stream : Substream}

theorem slice_eq (hfront : run.output <+: run'.output) (hstop : stream.stop ≤ run.output.length) :
    run'.slice stream = run.slice stream := by
  obtain ⟨more, hmore⟩ := hfront
  unfold DecoderRun.slice
  rw [← hmore]
  rcases Nat.le_total stream.start run.output.length with hstart | hstart
  · rw [List.drop_append_of_le_length hstart, List.take_append_of_le_length]
    rw [List.length_drop]
    omega
  · have hnone : stream.stop - stream.start = 0 := by omega
    rw [hnone, List.take_zero, List.take_zero]

theorem mono (h : run.Matched crc32 stream) (hfront : run.output <+: run'.output) :
    run'.Matched crc32 stream where
  stop := h.stop.trans hfront.length_le
  digest := by
    rw [slice_eq hfront h.stop]
    exact h.digest

end DecoderRun.Matched

section
variable {ω δ κ : Type} {limits : ResourceLimits} {crc32 : List UInt8 → UInt32} {runs : List DecoderRun}
  {run : DecoderRun} {active active' : ActiveFolder δ} {op op' : Operation ω}

/-- An open folder stands where its decoder stands, and what it left behind was compared. -/
structure ActiveFolder.InStep (crc32 : List UInt8 → UInt32) (limits : ResourceLimits)
    (runs : List DecoderRun) (run : DecoderRun) (active : ActiveFolder δ) (op : Operation ω) : Prop where
  backed : active.Backed limits op
  decoders : op.history.decoders = run :: runs
  layout : active.streams.layout = run.folder.layout
  position : active.position ≤ run.folder.layout.len
  rest : active.streams.toList = run.folder.substreams.toList.drop active.position
  offset : run.output.length = active.streams.offset
  decoded : active.decodedLen.toNat = run.output.length
  unpackSize : active.unpackSize = run.folder.unpackSize
  digest : active.digest = (DigestState.new run.folder.crc).update run.output
  matched : ∀ stream ∈ run.folder.substreams.toList.take active.position, run.Matched crc32 stream

def ReadsOn (limits : ResourceLimits) (folder : FolderLayout) (runs : List DecoderRun) (eager : Bool)
    (consume : Reading ω δ → Except CallbackError κ × Reading ω δ) : Prop :=
  ∀ {callbacks : List CallbackRun} {stream : Substream} {output : List UInt8} {s : Reading ω δ},
    stream.stop < 2 ^ 64 → output.length = stream.start →
      s.Tracked limits eager folder runs callbacks stream output →
        ∃ callbacks' more,
          (consume s).2.Tracked limits eager folder runs callbacks' stream (output ++ more)

/-- A substream that was read: where its callback left it, and where the folder stands behind it. -/
structure ActiveFolder.ReadTo (crc32 : List UInt8 → UInt32) (limits : ResourceLimits)
    (runs : List DecoderRun) (run : DecoderRun) (active : ActiveFolder δ) (op : Operation ω)
    (consume : Reading ω δ → Except CallbackError κ × Reading ω δ) (result : κ) (run' : DecoderRun)
    (active' : ActiveFolder δ) (op' : Operation ω) : Prop where
  folder : run'.folder = run.folder
  output : run.output <+: run'.output
  position : active'.position = active.position + 1
  inStep : active'.InStep crc32 limits runs run' op'
  consumed : ∃ stream streams s output, active.streams.next = some (stream, streams) ∧
    run.folder.substreams.toList[active.position]? = some stream ∧
    consume { content := active.openStream stream, op } = (.ok result, s) ∧
    s.Tracked limits active.budgetedEagerly run.folder runs op'.history.callbacks stream output ∧
    ¬s.op.Stopped ∧ output <+: run'.output

variable (env : Environment ω δ)

theorem readStream_ok {consume : Reading ω δ → Except CallbackError κ × Reading ω δ} {result : κ}
    (h : active.readStream env consume op = (.ok (active', result), op')) :
    ∃ stream streams s s', active.streams.next = some (stream, streams) ∧
      consume { content := active.openStream stream, op } = (.ok result, s) ∧
      SubstreamReader.drain env env.copyTurns s = (.ok (), s') ∧ s'.content.remaining = 0 ∧
      s'.content.streamDigest.finish env.crc32 = .ok () ∧
      active' = active.closeStream streams s'.content ∧ op' = s'.op := by
  unfold ActiveFolder.readStream at h
  cases hnext : active.streams.next with
  | none =>
    rw [hnext] at h
    cases h
  | some next =>
    obtain ⟨stream, streams⟩ := next
    rw [hnext] at h
    dsimp only at h
    rcases hconsume : consume { content := active.openStream stream, op } with ⟨e | k, s⟩
    · rw [hconsume] at h
      dsimp only at h
      split at h <;> cases h
    · rw [hconsume] at h
      dsimp only at h
      split at h
      · cases h
      rcases hdrain : SubstreamReader.drain env env.copyTurns s with ⟨e | u, s'⟩
      · rw [hdrain] at h
        dsimp only at h
        split at h <;> cases h
      · rw [hdrain] at h
        dsimp only at h
        split at h
        · cases h
        split at h
        · cases h
        rename_i hremaining
        cases hdigest : s'.content.streamDigest.finish env.crc32 with
        | error e =>
          rw [hdigest] at h
          cases h
        | ok _ =>
          rw [hdigest] at h
          cases h
          exact ⟨stream, streams, s, s', rfl, hconsume, hdrain, not_not.mp hremaining, hdigest, rfl, rfl⟩

namespace ActiveFolder.InStep

theorem tracked (h : active.InStep crc32 limits runs run op) {stream : Substream} {streams : Substreams}
    (hnext : active.streams.next = some (stream, streams)) :
    ({ content := active.openStream stream, op } : Reading ω δ).Tracked limits active.budgetedEagerly
      run.folder runs op.history.callbacks stream run.output := by
  obtain ⟨hstart, hle, -, -, -⟩ := Substreams.next_spec hnext
  have hoffset := h.offset.trans hstart.symm
  refine ⟨⟨rfl, Substreams.next_size hnext, h.backed⟩, ⟨⟨run.reads, h.decoders, rfl⟩, rfl⟩,
    h.decoded, ?_, hoffset.ge, h.digest, ?_⟩
  · show run.output.length + (stream.stop - stream.start) = stream.stop
    omega
  · show DigestState.new stream.digest = _
    rw [List.drop_eq_nil_of_le hoffset.le, DigestState.update_nil]

theorem next_stream (h : active.InStep crc32 limits runs run op) {stream : Substream} {streams : Substreams}
    (hnext : active.streams.next = some (stream, streams)) :
    run.folder.substreams.toList[active.position]? = some stream ∧
      streams.toList = run.folder.substreams.toList.drop (active.position + 1) ∧
      active.position + 1 ≤ run.folder.layout.len := by
  have hle : active.streams.position ≤ active.streams.layout.len := by
    rw [h.layout]
    exact h.position
  obtain ⟨hlayout, hrest, htoList⟩ := Substreams.next_some hle hnext
  obtain ⟨-, -, -, hposition, -⟩ := Substreams.next_spec hnext
  have hdrop := h.rest.symm.trans htoList
  refine ⟨?_, ?_, ?_⟩
  · have hhead : (run.folder.substreams.toList.drop active.position)[0]? = some stream := by rw [hdrop]; rfl
    rwa [List.getElem?_drop, Nat.add_zero] at hhead
  · rw [← List.tail_drop, hdrop]
    rfl
  · rw [hposition, hlayout, h.layout] at hrest
    exact hrest

theorem readStream (hcut : run.folder.Cut) (h : active.InStep env.crc32 limits runs run op)
    {consume : Reading ω δ → Except CallbackError κ × Reading ω δ} {result : κ}
    (hconsume : ReadsOn limits run.folder runs active.budgetedEagerly consume)
    (hrun : active.readStream env consume op = (.ok (active', result), op')) :
    ∃ run', active.ReadTo env.crc32 limits runs run op consume result run' active' op' := by
  obtain ⟨stream, streams, s, s', hnext, hconsumed, hdrain, hremaining, hdigest, rfl, rfl⟩ := readStream_ok env hrun
  obtain ⟨hat, hrest, hposition⟩ := h.next_stream hnext
  obtain ⟨hstart, hle, hlayout, hnextPosition, hoffset⟩ := Substreams.next_spec hnext
  have hstop := hcut.stop_lt (List.mem_of_getElem? hat)
  obtain ⟨callbacks, more, hs⟩ := hconsume hstop (h.offset.trans hstart.symm) (h.tracked hnext)
  rw [hconsumed] at hs
  obtain ⟨hrunning, rest, hs'⟩ := drain_tracked env hstop env.copyTurns hs hdrain
  obtain ⟨reads, hdecoders, houtput⟩ := hs'.inStep.gave.decoders
  have hcounted := hs'.inStep.counted
  have hlength := hcounted.remaining
  rw [hremaining, Nat.add_zero] at hlength
  -- the run of the decoder, with what was read of it here
  have hfront : run.output <+: ({ folder := run.folder, reads } : DecoderRun).output := by
    show _ <+: reads.flatten
    rw [houtput, List.append_assoc]
    exact List.prefix_append _ _
  refine ⟨{ folder := run.folder, reads }, rfl, hfront, hnextPosition, ?_, stream, streams, s,
    run.output ++ more, hnext, hat, hconsumed, ?_, hrunning, ?_⟩
  · refine ⟨hs'.covered.backed, hdecoders, hlayout.trans h.layout, ?_, ?_, ?_, ?_, h.unpackSize, ?_, ?_⟩
    · show streams.position ≤ _
      rw [hnextPosition]
      exact hposition
    · show streams.toList = run.folder.substreams.toList.drop streams.position
      rw [hnextPosition]
      exact hrest
    · show reads.flatten.length = streams.offset
      rw [houtput, hlength, hoffset]
    · show s'.content.decodedLen.toNat = reads.flatten.length
      rw [houtput]
      exact hcounted.decoded
    · show s'.content.folderDigest = (DigestState.new run.folder.crc).update reads.flatten
      rw [houtput]
      exact hcounted.folderDigest
    · intro other hother
      rw [show (active.closeStream streams s'.content).position = active.position + 1 from hnextPosition,
        List.take_add_one, hat] at hother
      rcases List.mem_append.mp hother with hbefore | hlast
      · exact (h.matched other hbefore).mono hfront
      · obtain rfl : other = stream := List.mem_singleton.mp hlast
        refine ⟨?_, fun crc hcrc => ?_⟩
        · show other.stop ≤ reads.flatten.length
          rw [houtput, hlength]
        · rw [hcounted.streamDigest] at hdigest
          have hslice : ({ folder := run.folder, reads } : DecoderRun).slice other =
              (run.output ++ more ++ rest).drop other.start := by
            show (reads.flatten.drop other.start).take (other.stop - other.start) = _
            rw [houtput]
            refine List.take_of_length_le ?_
            rw [List.length_drop, hlength]
          rw [hslice]
          exact DigestState.finish_new hdigest crc hcrc
  · rw [hs'.inStep.gave.callbacks]
    exact hs
  · show _ <+: reads.flatten
    rw [houtput]
    exact List.prefix_append _ _

theorem skipStream (hcut : run.folder.Cut) (h : active.InStep env.crc32 limits runs run op)
    (hrun : active.skipStream env op = (.ok active', op')) :
    ∃ run', run'.folder = run.folder ∧ run.output <+: run'.output ∧
      active'.InStep env.crc32 limits runs run' op' ∧ active'.position = active.position + 1 := by
  obtain ⟨⟨active'', u⟩, op'', hread, hrun⟩ := Machine.bind_eq_ok.mp hrun
  cases hrun
  have hnobody : ReadsOn (ω := ω) (δ := δ) limits run.folder runs active.budgetedEagerly
      (fun s => (Except.ok (ε := CallbackError) (), s)) := by
    intro callbacks stream output s _ _ hs
    refine ⟨callbacks, [], ?_⟩
    rw [List.append_nil]
    exact hs
  obtain ⟨run', hto⟩ := h.readStream env hcut hnobody hread
  exact ⟨run', hto.folder, hto.output, hto.inStep, hto.position⟩

theorem skipStreams (n : ℕ) : ∀ {active active' : ActiveFolder δ} {run : DecoderRun} {op op' : Operation ω},
    run.folder.Cut → active.InStep env.crc32 limits runs run op →
      active.skipStreams env n op = (.ok active', op') →
        ∃ run', run'.folder = run.folder ∧ run.output <+: run'.output ∧
          active'.InStep env.crc32 limits runs run' op' ∧ active'.position = active.position + n := by
  induction n with
  | zero =>
    intro active active' run op op' _ h hrun
    cases hrun
    exact ⟨run, rfl, List.prefix_rfl, h, rfl⟩
  | succ n ih =>
    intro active active' run op op' hcut h hrun
    obtain ⟨middle, op₁, hskip, hrun⟩ := Machine.bind_eq_ok.mp hrun
    obtain ⟨run₁, hfolder, hfront, hmiddle, hposition⟩ := h.skipStream env hcut hskip
    obtain ⟨run', hfolder', hfront', hlast, hposition'⟩ := ih (hfolder ▸ hcut) hmiddle hrun
    refine ⟨run', hfolder'.trans hfolder, hfront.trans hfront', hlast, ?_⟩
    rw [hposition', hposition]
    omega

theorem skipTo {position : ℕ} (hcut : run.folder.Cut) (h : active.InStep env.crc32 limits runs run op)
    (hrun : active.skipTo env position op = (.ok active', op')) :
    ∃ run', run'.folder = run.folder ∧ run.output <+: run'.output ∧
      active'.InStep env.crc32 limits runs run' op' ∧ active'.position = position := by
  unfold ActiveFolder.skipTo at hrun
  by_cases hrange : active.position ≤ position ∧ position ≤ active.streams.layout.len
  · rw [if_pos hrange] at hrun
    obtain ⟨run', hfolder, hfront, hlast, hposition⟩ := h.skipStreams env _ hcut hrun
    exact ⟨run', hfolder, hfront, hlast, by rw [hposition]; omega⟩
  · rw [if_neg hrange] at hrun
    cases hrun

theorem readExtra_ok (hdecoders : op.history.decoders = run :: runs) {extra : List UInt8}
    (hrun : active.readExtra env op = (.ok extra, op')) :
    op'.history.decoders = { run with reads := run.reads ++ [extra] } :: runs := by
  unfold ActiveFolder.readExtra readFolder at hrun
  rcases hread : active.reader.read env 1 op.outside with ⟨e | bytes, reader, outside⟩
  · rw [hread] at hrun
    cases hrun
  · rw [hread] at hrun
    cases hrun
    show (noteRead extra op.history).decoders = _
    unfold noteRead
    rw [hdecoders]

theorem finish {mode : CompletionMode} {verification : ReadVerification} (hcut : run.folder.Cut)
    (h : active.InStep env.crc32 limits runs run op)
    (hrun : active.finish env mode op = (.ok verification, op')) :
    ∃ run', run'.folder = run.folder ∧ op'.history.decoders = run' :: runs ∧
      verification ≠ .Incomplete ∧ (verification = .CompleteFolders → run'.Verified env.crc32) := by
  unfold ActiveFolder.finish at hrun
  by_cases hselected : mode = .SelectedStreams ∧ active.digest = .Absent ∧ active.streams.remaining ≠ 0
  · rw [if_pos hselected] at hrun
    cases hrun
    exact ⟨run, rfl, h.decoders, (by decide), fun hcomplete => (by cases hcomplete)⟩
  rw [if_neg hselected] at hrun
  obtain ⟨skipped, op₁, hskip, hrun⟩ := Machine.bind_eq_ok.mp hrun
  obtain ⟨run₁, hfolder, -, hskipped, hposition⟩ := h.skipStreams env _ hcut hskip
  by_cases hlength : skipped.decodedLen ≠ skipped.unpackSize
  · rw [if_pos hlength] at hrun
    cases hrun
  rw [if_neg hlength] at hrun
  obtain ⟨extra, op₂, hextra, hrun⟩ := Machine.bind_eq_ok.mp hrun
  have hdecoders := readExtra_ok env hskipped.decoders hextra
  by_cases hmore : ¬extra.isEmpty
  · rw [if_pos hmore] at hrun
    cases hrun
  rw [if_neg hmore] at hrun
  obtain ⟨_, op₃, hdigest, hrun⟩ := Machine.bind_eq_ok.mp hrun
  have hnone : extra = [] := List.isEmpty_iff.mp (not_not.mp hmore)
  subst hnone
  cases hdigestResult : skipped.digest.finish env.crc32 with
  | error e =>
    rw [hdigestResult] at hdigest
    cases hdigest
  | ok _ =>
  rw [hdigestResult] at hdigest
  cases hdigest
  cases hrun
  -- the read behind the end added nothing to the output
  have houtput : ({ run₁ with reads := run₁.reads ++ [[]] } : DecoderRun).output = run₁.output := by
    show (run₁.reads ++ [[]]).flatten = run₁.reads.flatten
    rw [List.flatten_append, List.flatten_singleton, List.append_nil]
  refine ⟨{ run₁ with reads := run₁.reads ++ [[]] }, hfolder, hdecoders, (by decide),
    fun _ => ⟨?_, ?_, ?_, ?_⟩⟩
  · rw [houtput, ← hskipped.decoded, not_not.mp hlength, hskipped.unpackSize]
  · exact List.getLast?_concat
  · intro stream hstream
    have hall : run₁.folder.substreams.toList.take skipped.position = run₁.folder.substreams.toList := by
      refine List.take_of_length_le ?_
      rw [Substreams.length_toList, hposition]
      show run₁.folder.layout.len - 0 ≤ active.streams.position + (active.streams.layout.len - active.streams.position)
      rw [h.layout, hfolder]
      omega
    rw [← hall] at hstream
    exact (hskipped.matched stream hstream).mono (by rw [houtput])
  · intro crc hcrc
    rw [houtput]
    rw [hskipped.digest] at hdigestResult
    exact DigestState.finish_new hdigestResult crc hcrc

theorem invoke_handing {stream : Substream} {output : List UInt8} {callbacks : List CallbackRun}
    {folder : FolderLayout} {eager : Bool} {s : Reading ω δ} (consumer : Consumer κ) (entry : ℕ)
    (hstop : stream.stop < 2 ^ 64) (hstart : output.length = stream.start)
    (hs : s.Tracked limits eager folder runs callbacks stream output) :
    ∃ handed more, (consumer.invoke env entry s).2.Handing limits eager folder runs callbacks stream entry
      handed (output ++ more) := by
  refine @run_handing _ _ _ _ _ _ env _ _ _ _ hstop consumer _ [] _ ⟨⟨hs.covered.noteInvoked entry,
    ⟨hs.inStep.gave.decoders, ?_⟩, hs.inStep.counted⟩, fun _ => ?_, fun _ => ?_⟩
  · show { entry, handed := [] } :: s.op.history.callbacks = _
    rw [hs.inStep.gave.callbacks]
  · rw [List.drop_eq_nil_of_le hstart.le]
    rfl
  · rintro ⟨size, -, hmem⟩
    cases hmem

theorem invoke {stream : Substream} {consumer : Consumer κ} {entry : ℕ} {result : κ}
    (hcut : run.folder.Cut) (h : active.InStep env.crc32 limits runs run op)
    (hat : run.folder.substreams.toList[active.position]? = some stream)
    (hrun : active.readStream env (consumer.invoke env entry) op = (.ok (active', result), op')) :
    ∃ run' callback, run'.folder = run.folder ∧ active'.InStep env.crc32 limits runs run' op' ∧
      callback.entry = entry ∧ op'.history.callbacks = callback :: op.history.callbacks ∧
      callback.Given env.crc32 stream run' := by
  have hconsume : ReadsOn limits run.folder runs active.budgetedEagerly (consumer.invoke (δ := δ) env entry) := by
    intro callbacks stream output s hstop hstart hs
    obtain ⟨handed, more, hhanding⟩ := invoke_handing env consumer entry hstop hstart hs
    exact ⟨_, more, hhanding.tracked⟩
  obtain ⟨run', hto⟩ := h.readStream env hcut hconsume hrun
  obtain ⟨stream', streams, s, output, hnext, hat', hconsumed, hs, hrunning, hfront⟩ := hto.consumed
  obtain rfl : stream' = stream := Option.some.inj (hat'.symm.trans hat)
  obtain ⟨hstart, -, -, -, -⟩ := Substreams.next_spec hnext
  have hstop := hcut.stop_lt (List.mem_of_getElem? hat)
  obtain ⟨handed, more, hhanding⟩ := invoke_handing env consumer entry hstop
    (h.offset.trans hstart.symm) (h.tracked hnext)
  rw [hconsumed] at hhanding
  obtain rfl : output = run.output ++ more := by
    have hcallbacks := hs.inStep.gave.callbacks.symm.trans hhanding.tracked.inStep.gave.callbacks
    have hin := hs.inStep
    rw [hcallbacks] at hin
    exact hin.unique hhanding.tracked.inStep
  have hbytes := hhanding.bytes hrunning
  have hcounted := hhanding.tracked.inStep.counted
  have hplace := hcounted.remaining
  have hslice : handed.flatMap Prod.snd <+: run'.slice stream' := by
    rw [hbytes]
    refine List.prefix_take_iff.mpr ⟨hfront.drop _, ?_⟩
    rw [List.length_drop]
    omega
  have hmatched : run'.Matched env.crc32 stream' := by
    refine hto.inStep.matched stream' ?_
    rw [hto.folder, hto.position, List.take_add_one, hat]
    exact List.mem_append_right _ List.mem_cons_self
  refine ⟨run', { entry, handed }, hto.folder, hto.inStep, rfl, ?_, hmatched, hslice, fun hend => ?_⟩
  · exact hs.inStep.gave.callbacks.symm.trans hhanding.tracked.inStep.gave.callbacks
  · -- at the end of the substream nothing of it is left
    have hremaining := hhanding.ended hrunning hend
    refine hslice.eq_of_length ?_
    unfold DecoderRun.slice
    have hlength := hmatched.stop
    rw [hbytes, List.length_drop, List.length_take, List.length_drop]
    omega

end ActiveFolder.InStep

theorem startDecoder_ok {ready : ReadyFolder δ} {password : Option String} {reader : FolderReader δ}
    (hrun : ready.startDecoder env password op = (.ok reader, op')) :
    op'.history.decoders = { folder := ready.folder, reads := [] } :: op.history.decoders := by
  obtain ⟨reader', op₁, hstart, hrun⟩ := Machine.bind_eq_ok.mp hrun
  obtain ⟨_, op₂, hrecord, hrun⟩ := Machine.bind_eq_ok.mp hrun
  have hquiet := (startDecoder_quiet env ready.decoder password).ok hstart
  cases hrecord
  cases hrun
  exact congrArg _ hquiet.decoders

theorem withEager_ok {α : Type} {size : UInt64} {start : OperationM ω α} {a : α}
    (hrun : Operation.withEagerDecodedOutput size start op = (.ok a, op')) :
    ∃ middle, start op = (.ok a, middle) ∧ op'.history = Operation.noteCharge size middle.history := by
  unfold Operation.withEagerDecodedOutput at hrun
  obtain ⟨_, _, hget, hrest⟩ := Machine.bind_eq_ok.mp hrun
  cases hget
  obtain ⟨next, op₁, hnext, hcharged⟩ := Machine.bind_eq_ok.mp hrest
  have hop : op₁ = op := (congrArg Prod.snd hnext).symm
  rw [hop] at hcharged
  obtain ⟨result, middle, hattempt, hcounted⟩ := Machine.bind_eq_ok.mp hcharged
  cases result with
  | error e =>
    dsimp only at hcounted
    split at hcounted
    · cases hcounted
    · cases hcounted
  | ok output =>
    obtain ⟨_, _, hcount, hpure⟩ := Machine.bind_eq_ok.mp hcounted
    cases hcount
    cases hpure
    have hresult : (start op).1 = .ok a := Except.ok.inj (congrArg Prod.fst hattempt)
    have hmiddle : (start op).2 = middle := (Prod.mk.inj hattempt).2
    exact ⟨middle, Prod.ext hresult hmiddle, rfl⟩

theorem ReadyFolder.start_ok {ready : ReadyFolder δ} {password : Option String}
    (hrun : ready.start env password op = (.ok active, op')) :
    ∃ reader middle, ready.startDecoder env password op = (.ok reader, middle) ∧
      op'.history.decoders = middle.history.decoders ∧ op'.history.callbacks = middle.history.callbacks ∧
      active = { reader, streams := ready.folder.substreams, digest := DigestState.new ready.folder.crc
                 decodedLen := 0, unpackSize := ready.folder.unpackSize
                 budgetedEagerly := ready.decoder.eagerOutputSize.isSome } := by
  unfold ReadyFolder.start at hrun
  dsimp only at hrun
  cases heager : ready.decoder.eagerOutputSize with
  | none =>
    rw [heager] at hrun
    obtain ⟨reader, middle, hreader, hpure⟩ := Machine.bind_eq_ok.mp hrun
    cases hpure
    exact ⟨reader, _, hreader, rfl, rfl, rfl⟩
  | some size =>
    rw [heager] at hrun
    obtain ⟨reader, charged, hreader, hpure⟩ := Machine.bind_eq_ok.mp hrun
    obtain ⟨middle, hstart, hhistory⟩ := withEager_ok hreader
    cases hpure
    exact ⟨reader, middle, hstart, by rw [hhistory]; rfl, by rw [hhistory]; rfl, rfl⟩

theorem ReadyFolder.start_inStep {ready : ReadyFolder δ} {password : Option String}
    (hchained : ready.decoder.Chained) (hop : op.Solvent limits)
    (hrun : ready.start env password op = (.ok active, op')) :
    active.InStep crc32 limits op.history.decoders { folder := ready.folder, reads := [] } op' := by
  have hbacked := (start_backed env hchained password).ok hop hrun
  obtain ⟨reader, middle, hstart, hdecoders, -, rfl⟩ := ready.start_ok env hrun
  exact {
    backed := hbacked
    decoders := hdecoders.trans (startDecoder_ok env hstart)
    layout := rfl
    position := Nat.zero_le _
    rest := rfl
    offset := rfl
    decoded := rfl
    unpackSize := rfl
    digest := (DigestState.update_nil _).symm
    matched := fun stream hstream => (by cases hstream) }

end

end R7z
