import R7z.LayoutPartition
import R7z.OpenLimits
import R7z.EntryTraversal

/-! External data: the substreams of the additional folders, cut from what their folders decode to and
put together in the order in which headers refer to them. -/

namespace R7z

open Effect Effect.Machine Wire Tiling

def cut (output : Slice) (stream : Substream) : Slice :=
  ⟨output.addr + stream.start, (output.bytes.drop stream.start).take (stream.stop - stream.start)⟩

def StreamInfo.declaredSubstreams (streams : StreamInfo) : ℕ :=
  match streams.substreamInfo with
  | some info => (info.numUnpackStreamsPerFolder.map UInt64.toNat).sum
  | none => (streams.unpackInfo.map UnpackInfo.numFoldersUsize).getD 0

/-! What must not fail, with its failures -/

def toUsize? (n : ℕ) : Option ℕ := if n < usizeLimit then some n else none

def slice? (buffer : Slice) (start stop : ℕ) : Option Slice :=
  if start ≤ stop ∧ stop ≤ buffer.bytes.length then
    some ⟨buffer.addr + start, (buffer.bytes.drop start).take (stop - start)⟩
  else none

/-- The substreams of a decoded folder; there are none when a conversion or a slicing fails. -/
def decodedStreams? (crc32 : List UInt8 → UInt32) (buffer : Slice) :
    List Substream → Option (Except R7zError (List Slice))
  | [] => some (.ok [])
  | substream :: substreams => do
    let start ← toUsize? substream.start
    let stop ← toUsize? substream.stop
    let stream ← slice? buffer start stop
    if substream.digest.any fun expected => crc32 stream.bytes ≠ expected then return .error .crc
    else do
      let streams ← decodedStreams? crc32 buffer substreams
      return streams.map (stream :: ·)

section
variable {ω δ : Type} (env : Environment ω δ) (source : SourceReader ω)

def ExternalFolderCollector.append? (collector : ExternalFolderCollector) (folder : FolderLayout)
    (buffer : Slice) : Option (Except R7zError ExternalFolderCollector) :=
  if folder.layout.len ≤ collector.remaining then do
    let streams ← decodedStreams? env.crc32 buffer folder.substreams.toList
    return streams.map fun streams =>
      { data := collector.data ++ streams, remaining := collector.remaining - folder.layout.len }
  else some (.error .parse)

/-- `decodeFolders`, ending without a collector when it comes to a failure that must not be. -/
def decodeFolders? (packs : PackedSource) (password : Option String) (limit : UInt64) :
    Nat → FolderPlans → ExternalFolderCollector → OperationM ω (Option ExternalFolderCollector)
  | 0, _, collector => pure (some collector)
  | turns + 1, plans, collector =>
    match plans.next with
    | (none, _) => pure (some collector)
    | (some (.error e), _) => fail e
    | (some (.ok folder), plans) => do
      let ready ← folder.bind env packs
      let bytes ← ready.collect env .ExternalData password limit
      let buffer ← source.buffer bytes
      match collector.append? env folder buffer with
      | none => pure none
      | some collector => do
        let collector ← ofExcept collector
        decodeFolders? packs password limit turns plans collector

/-! The whole of what a decoder gives -/

inductive CheckedReader.Gives : CheckedReader δ → ω → List UInt8 → Prop where
  | ends {reader reader' : CheckedReader δ} {outside outside' : ω} {n : ℕ} (hn : 0 < n)
      (hread : reader.read env n outside = (.ok [], reader', outside')) : Gives reader outside []
  | more {reader reader' : CheckedReader δ} {outside outside' : ω} {n : ℕ} {bytes rest : List UInt8}
      (hread : reader.read env n outside = (.ok bytes, reader', outside'))
      (hrest : Gives reader' outside' rest) : Gives reader outside (bytes ++ rest)
  | again {reader reader' : CheckedReader δ} {outside outside' : ω} {n : ℕ} {rest : List UInt8}
      (hread : reader.read env n outside = (.error .interrupted, reader', outside'))
      (hrest : Gives reader' outside' rest) : Gives reader outside rest

def FolderReader.Gives (reader : FolderReader δ) (outside : ω) (bytes : List UInt8) : Prop :=
  match reader with
  | .Stream reader => reader.Gives env outside bytes
  | .Buffered all => all = bytes

theorem readToEnd_gives {limit : ℕ} : ∀ {turns : ℕ} {reader : CheckedReader δ} {output bytes : List UInt8}
    {op op' : Operation ω}, readToEnd env limit turns reader output op = (.ok bytes, op') →
    bytes.length < limit → ∃ rest, bytes = output ++ rest ∧ reader.Gives env op.outside rest
  | 0, _, _, _, _, _, h, _ => by cases h
  | turns + 1, reader, output, bytes, op, op', h, hlt => by
    by_cases hlimit : output.length = limit
    · have hend := (congrFun (if_pos hlimit) op).symm.trans h
      cases hend
      exact absurd hlimit hlt.ne
    · replace h := (congrFun (if_neg hlimit) op).symm.trans h
      rcases hread : reader.read env (min 8192 (limit - output.length)) op.outside with ⟨e | chunk, reader', outside⟩
      · rw [hread] at h
        cases e with
        | interrupted =>
          obtain ⟨rest, hrest, hgives⟩ := readToEnd_gives h hlt
          exact ⟨rest, hrest, .again hread hgives⟩
        | _ => cases h
      · rw [hread] at h
        dsimp only at h
        by_cases hempty : chunk.isEmpty
        · rw [if_pos hempty] at h
          cases h
          rw [List.isEmpty_iff.mp hempty] at hread
          exact ⟨[], (List.append_nil _).symm, .ends (lt_min (by decide) (Nat.sub_pos_of_lt hlt)) hread⟩
        · rw [if_neg hempty] at h
          obtain ⟨rest, hrest, hgives⟩ := readToEnd_gives h hlt
          exact ⟨chunk ++ rest, by rw [hrest, List.append_assoc], .more hread hgives⟩

theorem readBoundedToVec_gives {limit : ℕ} {reader : FolderReader δ} {bytes : List UInt8} {op op' : Operation ω}
    (h : reader.readBoundedToVec env limit op = (.ok bytes, op')) (hlt : bytes.length < limit) :
    reader.Gives env op.outside bytes := by
  cases reader with
  | Stream reader =>
    obtain ⟨rest, hrest, hgives⟩ := readToEnd_gives env h hlt
    rw [hrest]
    exact hgives
  | Buffered all =>
    cases h
    rw [List.length_take] at hlt
    exact (List.take_of_length_le (by omega)).symm

/-! One folder -/

theorem finish_new {crc32 : List UInt8 → UInt32} {crc : Option UInt32} {bytes : List UInt8}
    (h : ((DigestState.new crc).update bytes).finish crc32 = .ok ()) :
    ∀ expected, crc = some expected → crc32 bytes = expected := by
  intro expected hcrc
  rw [hcrc] at h
  by_cases heq : expected = crc32 bytes
  · exact heq.symm
  · have herror : (Except.error .crc : Except R7zError Unit) = .ok () := (if_neg heq).symm.trans h
    cases herror

theorem verifyFolderOutput_ok {folder : FolderLayout} {bytes : List UInt8}
    (h : verifyFolderOutput env folder bytes = .ok ()) :
    bytes.length = folder.unpackSize.toNat ∧ ∀ expected, folder.crc = some expected → env.crc32 bytes = expected := by
  unfold verifyFolderOutput at h
  split at h
  · cases h
  · rename_i hlength
    exact ⟨not_not.mp hlength, finish_new h⟩

/-- The whole output of a folder: its decoder is started, gives these bytes and ends, and the bytes come to
lie in a buffer. -/
inductive FolderLayout.Decodes (packs : PackedSource) (password : Option String) (limit : UInt64)
    (folder : FolderLayout) (op : Operation ω) (output : Slice) : Operation ω → Prop where
  | whole {ready : ReadyFolder δ} {reader : FolderReader δ} {bound started collected placed : Operation ω}
      {history : History}
      (hbind : folder.bind env packs op = (.ok ready, bound))
      (hstart : ready.decoder.start env password { bound with history } = (.ok reader, started))
      (hgives : reader.Gives env started.outside output.bytes)
      (hcollect : ready.collect env .ExternalData password limit bound = (.ok output.bytes, collected))
      (hbuffer : source.buffer output.bytes collected = (.ok output, placed)) :
      Decodes packs password limit folder op output placed

structure FolderLayout.Verified (folder : FolderLayout) (output : Slice) : Prop where
  size : output.bytes.length = folder.unpackSize.toNat
  crc : ∀ expected, folder.crc = some expected → env.crc32 output.bytes = expected
  inside : ∀ stream ∈ folder.substreams.toList, stream.start ≤ stream.stop ∧ stream.stop ≤ output.bytes.length
  digests : ∀ stream ∈ folder.substreams.toList, ∀ expected, stream.digest = some expected →
    env.crc32 (cut output stream).bytes = expected

theorem collect_gives {block : MetadataBlock} {ready : ReadyFolder δ} {password : Option String} {limit : UInt64}
    {bytes : List UInt8} {op op' : Operation ω}
    (h : ready.collect env block password limit op = (.ok bytes, op')) :
    verifyFolderOutput env ready.folder bytes = .ok () ∧ ∃ history reader started,
      ready.decoder.start env password { op with history } = (.ok reader, started) ∧
        reader.Gives env started.outside bytes := by
  by_cases hcapacity : ready.folder.unpackSize.toNat + 1 < 2 ^ 64
  · by_cases hlimit : ready.folder.unpackSize > limit
    · have h := (congrFun (if_neg (not_not_intro hcapacity)) op).symm.trans h
      have h := (congrFun (if_pos hlimit) op).symm.trans h
      cases h
    · have h := (congrFun (if_neg (not_not_intro hcapacity)) op).symm.trans h
      have h := (congrFun (if_neg hlimit) op).symm.trans h
      obtain ⟨_, noted, hnoted, h⟩ := Machine.bind_eq_ok.mp h
      cases hnoted
      obtain ⟨reader, started, hstart, h⟩ := Machine.bind_eq_ok.mp h
      obtain ⟨all, drained, hread, h⟩ := Machine.bind_eq_ok.mp h
      obtain ⟨_, held, -, h⟩ := Machine.bind_eq_ok.mp h
      obtain ⟨_, verified, hverify, h⟩ := Machine.bind_eq_ok.mp h
      cases h
      have hok : verifyFolderOutput env ready.folder bytes = .ok () := congrArg Prod.fst hverify
      refine ⟨hok, _, reader, started, hstart, readBoundedToVec_gives env hread ?_⟩
      rw [(verifyFolderOutput_ok env hok).1]
      exact Nat.lt_succ_self _
  · have h := (congrFun (if_pos hcapacity) op).symm.trans h
    cases h

theorem buffer_bytes {bytes : List UInt8} {output : Slice} {op op' : Operation ω}
    (h : source.buffer bytes op = (.ok output, op')) : output.bytes = bytes := by
  obtain ⟨_, _, -, hplace⟩ := Machine.bind_eq_ok.mp h
  cases hplace
  rfl

theorem takes_of_next {plans after : FolderPlans} {folder : FolderLayout}
    (h : plans.next = (some (.ok folder), after)) : plans.Takes folder after := by
  have hnext : (⟨plans, 0⟩ : FolderLayouts).next = (some (.ok folder), ⟨after, 0⟩) := by
    rw [FolderLayouts.next, h]
  cases (⟨plans, 0⟩ : FolderLayouts).turn with
  | ends _ heq =>
    rw [heq] at hnext
    cases hnext
  | fails _ _ heq =>
    rw [heq] at hnext
    cases hnext
  | hands _ _ heq htakes =>
    rw [heq] at hnext
    cases hnext
    exact htakes

theorem substreams_inside {plans after : FolderPlans} {folder : FolderLayout}
    (h : plans.next = (some (.ok folder), after)) :
    ∀ stream ∈ folder.substreams.toList, stream.start ≤ stream.stop ∧ stream.stop ≤ folder.unpackSize.toNat := by
  intro stream hstream
  have htakes := takes_of_next h
  have hsome : folder.layout.len ≠ 0 := by
    intro hzero
    have hlength := folder.substreams.length_toList
    rw [show folder.substreams.remaining = folder.layout.len - 0 from rfl, hzero] at hlength
    rw [List.length_eq_zero_iff.mp hlength] at hstream
    cases hstream
  exact ((htakes.substreams_tiles hsome).bounds _ (List.mem_map_of_mem hstream)).2

/-! Blocks that are cut -/

theorem decodedStreams_ok {crc32 : List UInt8 → UInt32} {buffer : Slice} : ∀ {substreams : List Substream}
    {streams : List Slice}, decodedStreams crc32 buffer substreams = .ok streams →
    streams = substreams.map (cut buffer) ∧ ∀ stream ∈ substreams, ∀ expected, stream.digest = some expected →
      crc32 (cut buffer stream).bytes = expected
  | [], _, h => by
    cases h
    exact ⟨rfl, fun _ h => absurd h List.not_mem_nil⟩
  | substream :: substreams, streams, h => by
    unfold decodedStreams at h
    dsimp only at h
    split at h
    · cases h
    · rename_i hdigest
      obtain ⟨rest, hrest, h⟩ := Wire.except_bind_eq_ok.mp h
      cases h
      obtain ⟨rfl, hdigests⟩ := decodedStreams_ok hrest
      refine ⟨rfl, List.forall_mem_cons.mpr ⟨fun expected hexpected => ?_, hdigests⟩⟩
      rw [hexpected, Option.any_some, decide_eq_true_iff, not_not] at hdigest
      exact hdigest

theorem decodedStreams?_some {crc32 : List UInt8 → UInt32} {buffer : Slice} (hlength : buffer.bytes.length < usizeLimit) :
    ∀ {substreams : List Substream}, (∀ stream ∈ substreams, stream.start ≤ stream.stop ∧
      stream.stop ≤ buffer.bytes.length) →
    decodedStreams? crc32 buffer substreams = some (decodedStreams crc32 buffer substreams)
  | [], _ => rfl
  | substream :: substreams, h => by
    obtain ⟨⟨hstart, hstop⟩, hrest⟩ := List.forall_mem_cons.mp h
    have hstop' : toUsize? substream.stop = some substream.stop := if_pos (lt_of_le_of_lt hstop hlength)
    have hstart' : toUsize? substream.start = some substream.start :=
      if_pos (lt_of_le_of_lt (hstart.trans hstop) hlength)
    have hslice : slice? buffer substream.start substream.stop = some (cut buffer substream) :=
      if_pos ⟨hstart, hstop⟩
    unfold decodedStreams? decodedStreams
    simp only [hstart', hstop', hslice, decodedStreams?_some hlength hrest, Option.bind_eq_bind, Option.bind_some]
    by_cases hdigest : substream.digest.any fun expected => crc32 (cut buffer substream).bytes ≠ expected
    · rw [if_pos hdigest]
      exact (congrArg some (if_pos hdigest)).symm
    · rw [if_neg hdigest]
      refine Eq.trans ?_ (congrArg some (if_neg hdigest)).symm
      cases decodedStreams crc32 buffer substreams <;> rfl

/-! One folder after the other -/

inductive DecodesAll (packs : PackedSource) (password : Option String) (limit : UInt64) :
    List FolderLayout → Operation ω → List Slice → Operation ω → Prop where
  | nil (op : Operation ω) : DecodesAll packs password limit [] op [] op
  | cons {folder : FolderLayout} {folders : List FolderLayout} {output : Slice} {outputs : List Slice}
      {op op' op'' : Operation ω} (head : folder.Decodes env source packs password limit op output op')
      (tail : DecodesAll packs password limit folders op' outputs op'') :
      DecodesAll packs password limit (folder :: folders) op (output :: outputs) op''

def assembled (folders : List FolderLayout) (outputs : List Slice) : List Slice :=
  (folders.zip outputs).flatMap fun part => part.1.substreams.toList.map (cut part.2)

theorem length_assembled : ∀ {folders : List FolderLayout} {outputs : List Slice},
    outputs.length = folders.length → (assembled folders outputs).length = (folders.map fun folder => folder.layout.len).sum
  | [], _, _ => rfl
  | folder :: folders, [], h => by cases h
  | folder :: folders, output :: outputs, h => by
    have hrest := length_assembled (Nat.succ.inj h)
    have hlen : folder.substreams.toList.length = folder.layout.len := folder.substreams.length_toList
    unfold assembled at hrest ⊢
    rw [List.zip_cons_cons, List.flatMap_cons, List.length_append, List.length_map, hlen, hrest]
    rfl

structure Collected (packs : PackedSource) (password : Option String) (limit : UInt64)
    (folders : List FolderLayout) (op : Operation ω) (outputs : List Slice) (op' : Operation ω) : Prop where
  decodes : DecodesAll env source packs password limit folders op outputs op'
  length : outputs.length = folders.length
  verified : ∀ part ∈ folders.zip outputs, part.1.Verified env part.2

theorem append_ok {collector collector' : ExternalFolderCollector} {folder : FolderLayout} {buffer : Slice}
    (h : collector.append env folder buffer = .ok collector') :
    collector'.data = collector.data ++ folder.substreams.toList.map (cut buffer) ∧
      collector.remaining = folder.layout.len + collector'.remaining ∧
      ∀ stream ∈ folder.substreams.toList, ∀ expected, stream.digest = some expected →
        env.crc32 (cut buffer stream).bytes = expected := by
  unfold ExternalFolderCollector.append at h
  split at h
  · rename_i hle
    obtain ⟨streams, hstreams, h⟩ := Wire.except_bind_eq_ok.mp h
    cases h
    obtain ⟨rfl, hdigests⟩ := decodedStreams_ok hstreams
    exact ⟨rfl, (Nat.add_sub_of_le hle).symm, hdigests⟩
  · cases h

theorem decodeFolders_ok {packs : PackedSource} {password : Option String} {limit : UInt64} (streamCount : ℕ) :
    ∀ {turns : ℕ} {plans : FolderPlans} {collector collector' : ExternalFolderCollector} {op op' : Operation ω},
      decodeFolders env source packs password limit turns plans collector op = (.ok collector', op') →
      ∃ folders outputs, FolderLayouts.collect turns ⟨plans, streamCount⟩ = .ok folders ∧
        Collected env source packs password limit folders op outputs op' ∧
        collector'.data = collector.data ++ assembled folders outputs ∧
        collector.remaining = (folders.map fun folder => folder.layout.len).sum + collector'.remaining
  | 0, _, _, _, _, _, h => by
    cases h
    exact ⟨[], [], rfl, ⟨.nil _, rfl, fun _ h => absurd h List.not_mem_nil⟩, (List.append_nil _).symm,
      (Nat.zero_add _).symm⟩
  | turns + 1, plans, collector, collector', op, op', h => by
    unfold decodeFolders at h
    rcases hnext : plans.next with ⟨_ | e | folder, after⟩
    · rw [hnext] at h
      cases h
      refine ⟨[], [], ?_, ⟨.nil _, rfl, fun _ h => absurd h List.not_mem_nil⟩, (List.append_nil _).symm,
        (Nat.zero_add _).symm⟩
      rw [FolderLayouts.collect, FolderLayouts.next, hnext]
    · rw [hnext] at h
      cases h
    · rw [hnext] at h
      obtain ⟨ready, bound, hbind, h⟩ := Machine.bind_eq_ok.mp h
      obtain ⟨bytes, collected, hcollect, h⟩ := Machine.bind_eq_ok.mp h
      obtain ⟨output, placed, hbuffer, h⟩ := Machine.bind_eq_ok.mp h
      obtain ⟨appended, placed', happend, h⟩ := Machine.bind_eq_ok.mp h
      cases happend' : collector.append env folder output with
      | error e =>
        rw [happend'] at happend
        cases happend
      | ok next =>
        rw [happend'] at happend
        cases happend
        obtain ⟨folders, outputs, hfolders, hcollected, hdata, hremaining⟩ := decodeFolders_ok streamCount h
        obtain ⟨hfirst, hcount, hdigests⟩ := append_ok env happend'
        obtain ⟨hverify, history, reader, started, hstart, hgives⟩ := collect_gives env hcollect
        -- the buffer is what the decoder gave, and it was held against the folder's size and checksum
        rw [(FolderLayout.bind_chained env hbind).2] at hverify
        have hbytes := buffer_bytes source hbuffer
        rw [← hbytes] at hcollect hbuffer hgives hverify
        obtain ⟨hsize, hcrc⟩ := verifyFolderOutput_ok env hverify
        have hinside := substreams_inside hnext
        rw [← hsize] at hinside
        refine ⟨folder :: folders, output :: outputs, ?_, ⟨.cons (.whole hbind hstart hgives hcollect hbuffer)
          hcollected.decodes, congrArg (· + 1) hcollected.length,
          List.forall_mem_cons.mpr ⟨⟨hsize, hcrc, hinside, hdigests⟩, hcollected.verified⟩⟩, ?_, ?_⟩
        · rw [FolderLayouts.collect, FolderLayouts.next, hnext]
          dsimp only
          rw [hfolders]
          rfl
        · rw [hdata, hfirst, List.append_assoc]
          rfl
        · rw [hcount, hremaining, List.map_cons, List.sum_cons, Nat.add_assoc]

theorem append?_some {collector : ExternalFolderCollector} {folder : FolderLayout} {buffer : Slice}
    (hlength : buffer.bytes.length < usizeLimit) (h : ∀ stream ∈ folder.substreams.toList,
      stream.start ≤ stream.stop ∧ stream.stop ≤ buffer.bytes.length) :
    collector.append? env folder buffer = some (collector.append env folder buffer) := by
  unfold ExternalFolderCollector.append? ExternalFolderCollector.append
  split
  · rw [decodedStreams?_some hlength h]
    cases decodedStreams env.crc32 buffer folder.substreams.toList <;> rfl
  · rfl

theorem decodeFolders?_eq {packs : PackedSource} {password : Option String} {limit : UInt64} :
    ∀ (turns : ℕ) (plans : FolderPlans) (collector : ExternalFolderCollector) (op : Operation ω),
      decodeFolders? env source packs password limit turns plans collector op =
        (do return some (← decodeFolders env source packs password limit turns plans collector)) op
  | 0, _, _, _ => rfl
  | turns + 1, plans, collector, op => by
    unfold decodeFolders? decodeFolders
    rcases hnext : plans.next with ⟨_ | e | folder, after⟩
    · rfl
    · rfl
    · simp only [Machine.bind_apply]
      rcases hbind : folder.bind env packs op with ⟨e | ready, bound⟩
      · rfl
      rcases hcollect : ready.collect env .ExternalData password limit bound with ⟨e | bytes, collected⟩
      · simp only [hcollect]
      rcases hbuffer : source.buffer bytes collected with ⟨e | output, placed⟩
      · simp only [hcollect, hbuffer]
      obtain ⟨hverify, -⟩ := collect_gives env hcollect
      rw [(FolderLayout.bind_chained env hbind).2] at hverify
      have hbytes : output.bytes = bytes := buffer_bytes source hbuffer
      have hsize : output.bytes.length = folder.unpackSize.toNat := hbytes ▸ (verifyFolderOutput_ok env hverify).1
      have hinside := substreams_inside hnext
      rw [← hsize] at hinside
      have happend := @append?_some _ _ env collector folder output (hsize ▸ folder.unpackSize.toNat_lt) hinside
      simp only [hcollect, hbuffer, happend]
      cases collector.append env folder output with
      | error e => rfl
      | ok next => exact decodeFolders?_eq turns after next placed

/-! The plan -/

theorem addOutputs_total {bound : Option UInt64} {streamCount : ℕ} : ∀ {turns : ℕ} {plans last : FolderPlans}
    {outputSize total : UInt64} {folders : List FolderLayout},
    FolderLayouts.addOutputs bound turns plans outputSize = .ok (last, total) →
      FolderLayouts.collect turns ⟨plans, streamCount⟩ = .ok folders →
      total.toNat = outputSize.toNat + (folders.map fun folder => folder.unpackSize.toNat).sum
  | 0, _, _, _, _, _, hadd, hfolders => by
    cases hadd
    cases hfolders
    rfl
  | turns + 1, plans, last, outputSize, total, folders, hadd, hfolders => by
    rcases FolderLayouts.collect_succ hfolders with ⟨after, hnone, rfl⟩ | ⟨folder, after, rest, hsome, rfl, hrest⟩
    · cases addOutputs_cases hadd with
      | done after hnext htotal =>
        rw [htotal]
        rfl
      | folder folder after next hnext =>
        rw [FolderLayouts.next, hnext] at hnone
        cases hnone
    · cases addOutputs_cases hadd with
      | done after hnext =>
        rw [FolderLayouts.next, hnext] at hsome
        cases hsome
      | folder folder after next hnext hsize hadd =>
        rw [FolderLayouts.next, hnext] at hsome
        cases hsome
        rw [addOutputs_total hadd hrest, hsize, List.map_cons, List.sum_cons, Nat.add_assoc]

theorem externalPlan_ok {streams : StreamInfo} {plan : ExternalFolderPlan} {op op' : Operation ω}
    (h : ExternalFolderPlan.new streams op = (.ok plan, op')) :
    ∃ pack unpack bound last, streams.packInfo = some pack ∧ streams.unpackInfo = some unpack ∧
      plan.folders.plans = FolderPlans.new pack unpack streams.substreamInfo ∧
      substreamCount unpack.numFoldersUsize streams.substreamInfo = .ok plan.folders.streamCount ∧
      FolderLayouts.addOutputs bound (unpack.numFoldersUsize + 1) plan.folders.plans 0 =
        .ok (last, plan.outputLimit) := by
  obtain ⟨⟨pack, unpack⟩, op₁, hpacked, h⟩ := Machine.bind_eq_ok.mp h
  obtain ⟨remaining, op₂, -, h⟩ := Machine.bind_eq_ok.mp h
  obtain ⟨validated, op₃, hvalidated, h⟩ := Machine.bind_eq_ok.mp h
  obtain ⟨slotBytes, op₄, -, h⟩ := Machine.bind_eq_ok.mp h
  obtain ⟨_, op₅, -, h⟩ := Machine.bind_eq_ok.mp h
  obtain ⟨_, op₆, -, h⟩ := Machine.bind_eq_ok.mp h
  cases h
  have hpacked : streams.packedFolders = .ok (pack, unpack) := congrArg Prod.fst hpacked
  have hpreflight : FolderLayouts.preflight pack unpack streams.substreamInfo remaining = .ok validated := by
    unfold mapMetadataError at hvalidated
    rcases hrun : FolderLayouts.preflight pack unpack streams.substreamInfo remaining with e | v
    · rw [hrun] at hvalidated
      cases hvalidated
    · rw [hrun] at hvalidated
      cases hvalidated
      rfl
  unfold StreamInfo.packedFolders at hpacked
  split at hpacked
  · rename_i hpack hunpack
    cases hpacked
    obtain ⟨packedBytes, -, hvalid⟩ := Wire.except_bind_eq_ok.mp hpreflight
    dsimp only at hvalid
    split at hvalid
    · cases hvalid
    · obtain ⟨⟨last, outputSize⟩, hadd, hvalid⟩ := Wire.except_bind_eq_ok.mp hvalid
      obtain ⟨streamCount, hcount, hvalid⟩ := Wire.except_bind_eq_ok.mp hvalid
      dsimp only at hvalid
      split at hvalid
      · cases hvalid
      · cases hvalid
        exact ⟨pack, unpack, _, last, hpack, hunpack, rfl, hcount, hadd⟩
  · cases hpacked

theorem substreamCount_declared {streams : StreamInfo} {unpack : UnpackInfo} {streamCount : ℕ}
    (hunpack : streams.unpackInfo = some unpack)
    (h : substreamCount unpack.numFoldersUsize streams.substreamInfo = .ok streamCount) :
    streamCount = streams.declaredSubstreams := by
  unfold StreamInfo.declaredSubstreams
  unfold substreamCount at h
  cases hinfo : streams.substreamInfo with
  | none =>
    rw [hinfo] at h
    cases h
    rw [hunpack]
    rfl
  | some info =>
    rw [hinfo] at h
    dsimp only at h
    split at h
    · cases h
    · exact (checkedUsizeAdd_foldlM h).trans (Nat.zero_add _)

structure Assembled (streams : StreamInfo) (limit : UInt64) (folders : List FolderLayout)
    (outputs data : List Slice) : Prop where
  tables : ∃ pack unpack, streams.packInfo = some pack ∧ streams.unpackInfo = some unpack ∧
    Partitioned pack unpack streams.substreamInfo folders
  total : (folders.map fun folder => folder.unpackSize.toNat).sum = limit.toNat
  length : data.length = streams.declaredSubstreams
  blocks : data = assembled folders outputs

/-- `decode`, which ends without data when it comes to a failure that must not be. -/
def ExternalFolderPlan.decode? (plan : ExternalFolderPlan) (packs : PackedSource)
    (password : Option String) : OperationM ω (Option (List Slice)) := do
  let slots := plan.folders.streamCount * BYTES_SIZE
  Operation.recordHistory (notePlanned .ExternalSlots slots)
  Operation.recordHistory (noteHeld .ExternalSlots slots)
  match ← decodeFolders? env source packs password plan.outputLimit
    (plan.folders.plans.unpackInfo.numFoldersUsize + 1) plan.folders.plans
    { data := [], remaining := plan.folders.streamCount } with
  | none => pure none
  | some collector => if collector.remaining = 0 then pure (some collector.data) else fail .parse

theorem decode?_eq (plan : ExternalFolderPlan) (packs : PackedSource) (password : Option String)
    (op : Operation ω) : plan.decode? env source packs password op =
      (do return some (← plan.decode env source packs password)) op := by
  unfold ExternalFolderPlan.decode? ExternalFolderPlan.decode
  simp only [Machine.bind_apply, decodeFolders?_eq]
  rcases Operation.recordHistory (notePlanned .ExternalSlots (plan.folders.streamCount * BYTES_SIZE)) op with ⟨e | _, op₁⟩
  · rfl
  dsimp only
  rcases Operation.recordHistory (noteHeld .ExternalSlots (plan.folders.streamCount * BYTES_SIZE)) op₁ with ⟨e | _, op₂⟩
  · rfl
  dsimp only
  rcases decodeFolders env source packs password plan.outputLimit (plan.folders.plans.unpackInfo.numFoldersUsize + 1)
    plan.folders.plans { data := [], remaining := plan.folders.streamCount } op₂ with ⟨e | collector, op₃⟩
  · rfl
  change (if collector.remaining = 0 then pure (some collector.data) else fail .parse : OperationM ω _) op₃ =
    ((if collector.remaining = 0 then pure collector.data else fail .parse) >>= fun data => pure (some data)) op₃
  by_cases hzero : collector.remaining = 0
  · rw [if_pos hzero, if_pos hzero]
    rfl
  · rw [if_neg hzero, if_neg hzero]
    rfl

/-- External data is the declared substreams, folder after folder, cut from the outputs of their folders:
each output has been decoded to its end, has its declared size and every checksum that is recorded. A
conversion or slicing that must not fail does not fail, whether the run returns data or an error. -/
theorem external_data {streams : StreamInfo} {plan : ExternalFolderPlan} {op op₁ : Operation ω}
    (hplan : ExternalFolderPlan.new streams op = (.ok plan, op₁)) (packs : PackedSource)
    (password : Option String) (op₂ : Operation ω) :
    plan.decode? env source packs password op₂ =
        (do return some (← plan.decode env source packs password)) op₂ ∧
      ∀ (data : List Slice) (op₃ : Operation ω), plan.decode env source packs password op₂ = (.ok data, op₃) →
        ∃ folders outputs history, Collected env source packs password plan.outputLimit folders
          { op₂ with history } outputs op₃ ∧ Assembled streams plan.outputLimit folders outputs data := by
  obtain ⟨pack, unpack, bound, last, hpack, hunpack, hplans, hcount, hadd⟩ := externalPlan_ok hplan
  have hturns : plan.folders.plans.unpackInfo.numFoldersUsize = unpack.numFoldersUsize := by
    rw [hplans]
    rfl
  refine ⟨decode?_eq env source plan packs password op₂, fun data op₃ h => ?_⟩
  · obtain ⟨_, noted, hnoted, h⟩ := Machine.bind_eq_ok.mp h
    cases hnoted
    obtain ⟨_, noted, hnoted, h⟩ := Machine.bind_eq_ok.mp h
    cases hnoted
    obtain ⟨collector, collected, hcollector, h⟩ := Machine.bind_eq_ok.mp h
    obtain ⟨folders, outputs, hfolders, hcollected, hdata, hremaining⟩ :=
      decodeFolders_ok env source plan.folders.streamCount hcollector
    by_cases hzero : collector.remaining = 0
    · have hend := (congrFun (if_pos hzero) collected).symm.trans h
      cases hend
      rw [hzero, Nat.add_zero] at hremaining
      rw [List.nil_append] at hdata
      rw [hturns] at hfolders
      refine ⟨folders, outputs, _, hcollected, ⟨pack, unpack, hpack, hunpack, ?_⟩, ?_, ?_, hdata⟩
      · rw [hplans] at hfolders
        have hall : (⟨FolderPlans.new pack unpack streams.substreamInfo, plan.folders.streamCount⟩ : FolderLayouts).turns =
            unpack.numFoldersUsize + 1 := rfl
        obtain ⟨last, hwalk, hindex, hvalid⟩ := FolderLayouts.collect_walk hall rfl hfolders
        exact hwalk.partitioned hindex hvalid
      · rw [addOutputs_total hadd hfolders]
        exact (Nat.zero_add _).symm
      · rw [hdata, length_assembled hcollected.length, ← hremaining]
        exact substreamCount_declared hunpack hcount
    · have hend := (congrFun (if_neg hzero) collected).symm.trans h
      cases hend

end

def copied (memory : List UInt8) : SourceReader Unit where
  len := fun _ => (.ok (UInt64.ofNat memory.length), ())
  findSignature := fun _ => (.error .parse, ())
  readExactAt := fun _ _ _ => (.error .io, ())
  rangeCrc := fun _ _ _ => (.ok 0, ())
  place := fun _ _ => (0, ())

/-- Three folders with no, one and two substreams, from five bytes. -/
theorem external_data_mixed : ∃ data folders outputs, data.map Slice.bytes = [[0, 1], [2], [3, 4]] ∧
    Assembled FileStreams.mixedStreams 5 folders outputs data := by
  let memory : List UInt8 := [0, 1, 2, 3, 4]
  let limits : ResourceLimits := { maxMetadataBytes := 1000, maxDecoderWorkingSetBytes := none,
                                   maxTotalDecodedBytes := none, maxTotalKdfCycles := none }
  let op := Operation.new (OperationBudget.new limits false) ()
  let run : OperationM Unit (ExternalFolderPlan × List Slice) := do
    let plan ← ExternalFolderPlan.new FileStreams.mixedStreams
    let data ← plan.decode (copying memory) (copied memory) { start := 0 } none
    pure (plan, data)
  have hrun : ((run op).1.toOption.map fun result => (result.1.outputLimit, result.2.map Slice.bytes)) =
      some (5, [[0, 1], [2], [3, 4]]) := by decide +kernel
  rcases hok : run op with ⟨e | ⟨plan, data⟩, op₃⟩
  · rw [hok] at hrun
    cases hrun
  · rw [hok] at hrun
    obtain ⟨hlimit, hdata⟩ := Prod.mk.inj (Option.some.inj hrun)
    obtain ⟨_, op₁, hplan, hrest⟩ := Machine.bind_eq_ok.mp hok
    obtain ⟨_, op₂, hdecode, hrest⟩ := Machine.bind_eq_ok.mp hrest
    cases hrest
    obtain ⟨folders, outputs, history, -, hassembled⟩ :=
      (external_data (copying memory) (copied memory) hplan { start := 0 } none op₁).2 _ _ hdecode
    have hfive : plan.outputLimit = 5 := hlimit
    rw [hfive] at hassembled
    exact ⟨data, folders, outputs, hdata, hassembled⟩

end R7z
