import R7z.EntryMapping
import R7z.Order.Tiling

/-! The folders of an archive cut its packed bytes into consecutive ranges, and the substreams of a
folder cut its output; and the sums and positions on the way stay within 64 bits, whatever the tables
of the header hold. -/

namespace R7z

open Wire Wire.Parser Tiling

def PackedStream.range (stream : PackedStream) : ℕ × ℕ := (stream.start, stream.stop)

def Substream.range (stream : Substream) : ℕ × ℕ := (stream.start, stream.stop)

/-! Ranges of given sizes -/

theorem packedStreamsFrom_tiles (digests : List (Option UInt32)) (sizes : List UInt64) :
    ∀ index offset : ℕ, Tiles offset (offset + (sizes.map UInt64.toNat).sum)
      ((packedStreamsFrom digests index offset sizes).map PackedStream.range) := by
  induction sizes with
  | nil => exact fun _ offset => .nil offset
  | cons size sizes ih =>
    intro index offset
    have hrest := ih (index + 1) (offset + size.toNat)
    rw [List.map_cons, List.sum_cons, ← Nat.add_assoc]
    exact .cons (Nat.le_add_right _ _) hrest

theorem substreamsFrom_tiles (digests : List (Option UInt32)) (sizes : List UInt64) :
    ∀ position offset : ℕ, Tiles offset (offset + (sizes.map UInt64.toNat).sum)
      ((substreamsFrom digests position offset sizes).map Substream.range) := by
  induction sizes with
  | nil => exact fun _ offset => .nil offset
  | cons size sizes ih =>
    intro position offset
    have hrest := ih (position + 1) (offset + size.toNat)
    rw [List.map_cons, List.sum_cons, ← Nat.add_assoc]
    exact .cons (Nat.le_add_right _ _) hrest

/-! One folder -/

namespace FolderPlans.Takes

variable {plans after : FolderPlans} {folder : FolderLayout}

theorem packed_tiles (h : plans.Takes folder after) :
    Tiles plans.packOffset after.packOffset (folder.streams.iter.map PackedStream.range) := by
  have hstart := h.streams.1
  obtain ⟨hoffset, -⟩ := sumSizes_eq_ok h.packOffset
  have htiles := packedStreamsFrom_tiles folder.streams.digests folder.streams.sizes 0 folder.streams.start
  rw [hoffset, ← hstart]
  exact htiles

theorem substreams_tiles (h : plans.Takes folder after) (hsome : folder.layout.len ≠ 0) :
    Tiles 0 folder.unpackSize.toNat (folder.substreams.toList.map Substream.range) := by
  obtain ⟨sizes, hlayout, -, -, hsum, -⟩ := h.layout
  have htiles := substreamsFrom_tiles folder.layout.digests sizes 0 0
  rw [hsum hsome, Nat.zero_add] at htiles
  unfold FolderLayout.substreams
  rw [hlayout, layoutOf_toList]
  exact htiles

end FolderPlans.Takes

/-! All folders -/

namespace FolderPlans.Walk

variable {plans last : FolderPlans} {folders : List FolderLayout}

theorem packed_tiles (h : plans.Walk folders last) : Tiles plans.packOffset last.packOffset
    (folders.flatMap fun folder => folder.streams.iter.map PackedStream.range) := by
  induction h with
  | nil plans => exact .nil _
  | cons head tail ih =>
    rw [List.flatMap_cons]
    exact head.packed_tiles.append ih

theorem substreams_tiles (h : plans.Walk folders last) : ∀ folder ∈ folders, folder.layout.len ≠ 0 →
    Tiles 0 folder.unpackSize.toNat (folder.substreams.toList.map Substream.range) := by
  induction h with
  | nil plans => simp
  | cons head tail ih =>
    intro folder hfolder hsome
    rcases List.mem_cons.mp hfolder with rfl | hrest
    · exact head.substreams_tiles hsome
    · exact ih folder hrest hsome

theorem packOffset (h : plans.Walk folders last) : last.packOffset = plans.packOffset +
    ((folders.flatMap fun folder => folder.streams.sizes).map UInt64.toNat).sum := by
  induction h with
  | nil plans => rfl
  | cons head tail ih =>
    rw [ih, (sumSizes_eq_ok head.packOffset).1, List.flatMap_cons, List.map_append, List.sum_append,
      Nat.add_assoc]

theorem packSizes (h : plans.Walk folders last) : plans.packInfo.packSize.take last.packIndex =
    plans.packInfo.packSize.take plans.packIndex ++ folders.flatMap fun folder => folder.streams.sizes := by
  have hstep : ∀ {plans : FolderPlans} {folder : FolderLayout} {next : FolderPlans}, True →
      plans.Takes folder next → True ∧ next.packInfo.packSize = plans.packInfo.packSize ∧
        plans.packInfo.packSize.take next.packIndex =
          plans.packInfo.packSize.take plans.packIndex ++ folder.streams.sizes := by
    intro plans folder next _ htakes
    exact ⟨trivial, by rw [htakes.tables.1], take_of_getRange htakes.packSizes⟩
  exact h.table hstep trivial

theorem coderSizes (h : plans.Walk folders last) : plans.unpackInfo.unpackSizes.take last.outputBase =
    plans.unpackInfo.unpackSizes.take plans.outputBase ++ folders.flatMap FolderLayout.coderSizes := by
  have hstep : ∀ {plans : FolderPlans} {folder : FolderLayout} {next : FolderPlans}, True →
      plans.Takes folder next → True ∧ next.unpackInfo.unpackSizes = plans.unpackInfo.unpackSizes ∧
        plans.unpackInfo.unpackSizes.take next.outputBase =
          plans.unpackInfo.unpackSizes.take plans.outputBase ++ folder.coderSizes := by
    intro plans folder next _ htakes
    exact ⟨trivial, by rw [htakes.tables.2.1], take_of_getRange htakes.coderSizes⟩
  exact h.table hstep trivial

variable {info : SubstreamInfo}

theorem explicitSizes (h : plans.Walk folders last) (hinfo : plans.substreamInfo = some info) :
    info.unpackSizes.take last.streamSizeBase = info.unpackSizes.take plans.streamSizeBase ++
      folders.flatMap fun folder => folder.layout.explicitSizes := by
  have hstep : ∀ {plans : FolderPlans} {folder : FolderLayout} {next : FolderPlans},
      plans.substreamInfo = some info → plans.Takes folder next →
        next.substreamInfo = some info ∧ info.unpackSizes = info.unpackSizes ∧
          info.unpackSizes.take next.streamSizeBase =
            info.unpackSizes.take plans.streamSizeBase ++ folder.layout.explicitSizes := by
    intro plans folder next hP htakes
    have hsizes := htakes.explicitSizes
    unfold FolderPlans.explicitStreamSizes at hsizes
    rw [hP] at hsizes
    exact ⟨htakes.tables.2.2.1.trans hP, rfl, take_of_getRange (orParseError_ok.mp hsizes)⟩
  exact @table plans last folders UInt64 (fun _ => info.unpackSizes) FolderPlans.streamSizeBase
    (fun folder => folder.layout.explicitSizes) (fun plans => plans.substreamInfo = some info) hstep h
    hinfo

theorem digests (h : plans.Walk folders last) (hinfo : plans.substreamInfo = some info)
    (hsome : info.digests ≠ []) :
    info.digests.take last.streamDigestBase = info.digests.take plans.streamDigestBase ++
      folders.flatMap fun folder => folder.layout.digests := by
  have hstep : ∀ {plans : FolderPlans} {folder : FolderLayout} {next : FolderPlans},
      plans.substreamInfo = some info → plans.Takes folder next →
        next.substreamInfo = some info ∧ info.digests = info.digests ∧
          info.digests.take next.streamDigestBase =
            info.digests.take plans.streamDigestBase ++ folder.layout.digests := by
    intro plans folder next hP htakes
    have hdigests := htakes.digests
    unfold FolderPlans.streamDigests at hdigests
    rw [hP] at hdigests
    dsimp only at hdigests
    rw [if_pos (by simpa using hsome)] at hdigests
    exact ⟨htakes.tables.2.2.1.trans hP, rfl, take_of_getRange (orParseError_ok.mp hdigests)⟩
  exact @table plans last folders (Option UInt32) (fun _ => info.digests) FolderPlans.streamDigestBase
    (fun folder => folder.layout.digests) (fun plans => plans.substreamInfo = some info) hstep h hinfo

theorem no_digests (h : plans.Walk folders last) (hinfo : plans.substreamInfo = some info)
    (hnone : info.digests = []) : (folders.flatMap fun folder => folder.layout.digests) = [] := by
  induction h with
  | nil plans => rfl
  | cons head tail ih =>
    have hdigests := head.digests
    unfold FolderPlans.streamDigests at hdigests
    rw [hinfo] at hdigests
    dsimp only at hdigests
    rw [hnone, if_neg (by simp)] at hdigests
    rw [List.flatMap_cons, ← Except.ok.inj hdigests, ih (head.tables.2.2.1.trans hinfo)]
    rfl

theorem packDigests (h : plans.Walk folders last)
    (hlen : plans.packInfo.digests.length = plans.packInfo.packSize.length) :
    plans.packInfo.digests.take last.packIndex =
      plans.packInfo.digests.take plans.packIndex ++ folders.flatMap fun folder => folder.streams.digests := by
  have hstep : ∀ {plans : FolderPlans} {folder : FolderLayout} {next : FolderPlans},
      plans.packInfo.digests.length = plans.packInfo.packSize.length → plans.Takes folder next →
        next.packInfo.digests.length = next.packInfo.packSize.length ∧
          next.packInfo.digests = plans.packInfo.digests ∧
          plans.packInfo.digests.take next.packIndex =
            plans.packInfo.digests.take plans.packIndex ++ folder.streams.digests := by
    intro plans folder next hP htakes
    obtain ⟨hle, hstop, -⟩ := getRange_eq_some.mp htakes.packSizes
    have hmin : min next.packIndex plans.packInfo.digests.length = next.packIndex := by
      apply min_eq_left
      rw [hP]
      exact hstop
    have hpart : getRange plans.packInfo.digests plans.packIndex next.packIndex =
        some ((plans.packInfo.digests.drop plans.packIndex).take (next.packIndex - plans.packIndex)) :=
      getRange_eq_some.mpr ⟨hle, by rw [hP]; exact hstop, rfl⟩
    have hdigests := htakes.streams.2
    rw [hmin, hpart, Option.getD_some] at hdigests
    refine ⟨by rw [htakes.tables.1]; exact hP, by rw [htakes.tables.1], ?_⟩
    rw [hdigests]
    exact take_of_getRange hpart
  exact h.table hstep hlen

theorem crcs (h : plans.Walk folders last)
    (hlen : plans.unpackInfo.digests.length = plans.unpackInfo.numFoldersUsize) :
    plans.unpackInfo.digests.take last.folderIndex =
      plans.unpackInfo.digests.take plans.folderIndex ++ folders.map FolderLayout.crc := by
  have hstep : ∀ {plans : FolderPlans} {folder : FolderLayout} {next : FolderPlans},
      plans.unpackInfo.digests.length = plans.unpackInfo.numFoldersUsize → plans.Takes folder next →
        next.unpackInfo.digests.length = next.unpackInfo.numFoldersUsize ∧
          next.unpackInfo.digests = plans.unpackInfo.digests ∧
          plans.unpackInfo.digests.take next.folderIndex =
            plans.unpackInfo.digests.take plans.folderIndex ++ [folder.crc] := by
    intro plans folder next hP htakes
    have hlt : plans.folderIndex < plans.unpackInfo.digests.length := hP ▸ htakes.folderIndex_lt
    refine ⟨by rw [htakes.tables.2.1]; exact hP, by rw [htakes.tables.2.1], ?_⟩
    rw [htakes.folderIndex, List.take_add_one, htakes.crc, List.getElem?_eq_getElem hlt]
    rfl
  have htable := h.table hstep hlen
  rwa [← List.map_eq_flatMap] at htable

theorem parsed (h : plans.Walk folders last) : ∀ i folder, folders[i]? = some folder →
    plans.unpackInfo.parseFolderWithGraph (plans.folderIndex + i) = .ok (folder.folder, folder.graph) := by
  induction h with
  | nil plans => simp
  | @cons plans next last folder folders head tail ih =>
    intro i folder' hfolder
    cases i with
    | zero =>
      have hsame : folder = folder' := by simpa using hfolder
      rw [← hsame]
      exact head.parsed
    | succ i =>
      have hrest := ih i folder' (by simpa using hfolder)
      rw [head.tables.2.1, head.folderIndex] at hrest
      rw [← hrest]
      congr 1
      omega

end FolderPlans.Walk

/-- The tables of a header are the folders' parts put together, and the ranges have no gaps. -/
structure Partitioned (pack : PackInfo) (unpack : UnpackInfo) (info? : Option SubstreamInfo)
    (folders : List FolderLayout) : Prop where
  packSizes : pack.packSize = folders.flatMap fun folder => folder.streams.sizes
  packDigests : pack.digests = [] ∨ pack.digests = folders.flatMap fun folder => folder.streams.digests
  count : folders.length = unpack.numFoldersUsize
  parsed : ∀ i folder, folders[i]? = some folder →
    unpack.parseFolderWithGraph i = .ok (folder.folder, folder.graph)
  coderSizes : unpack.unpackSizes = folders.flatMap FolderLayout.coderSizes
  crcs : unpack.digests = [] ∨ unpack.digests = folders.map FolderLayout.crc
  substreamTables : ∀ info, info? = some info →
    info.numUnpackStreamsPerFolder.map UInt64.toNat = folders.map (fun folder => folder.layout.len) ∧
      info.unpackSizes = (folders.flatMap fun folder => folder.layout.explicitSizes) ∧
      info.digests = folders.flatMap fun folder => folder.layout.digests
  packed : Partition 0 (pack.packSize.map UInt64.toNat).sum
    (folders.flatMap fun folder => folder.streams.iter.map PackedStream.range)
  substreams : ∀ folder ∈ folders, folder.layout.len ≠ 0 →
    Partition 0 folder.unpackSize.toNat (folder.substreams.toList.map Substream.range)

theorem FolderPlans.complete {plans : FolderPlans} (h : plans.validateComplete = .ok ()) :
    plans.packIndex = plans.packInfo.packSize.length ∧
      plans.outputBase = plans.unpackInfo.unpackSizes.length ∧
      (plans.packInfo.digests = [] ∨ plans.packInfo.digests.length = plans.packInfo.packSize.length) ∧
      (plans.unpackInfo.digests = [] ∨
        plans.unpackInfo.digests.length = plans.unpackInfo.numFoldersUsize) ∧
      ∀ info, plans.substreamInfo = some info →
        info.numUnpackStreamsPerFolder.length = plans.unpackInfo.numFoldersUsize ∧
          info.unpackSizes.length = plans.streamSizeBase ∧
          (info.digests = [] ∨ info.digests.length = plans.streamDigestBase) := by
  unfold FolderPlans.validateComplete at h
  rcases hinfo : plans.substreamInfo with _ | info <;> rw [hinfo] at h <;> dsimp only at h <;>
    split at h
  · cases h
  · rename_i hguard
    simp only [not_or, not_and_or, not_not, List.isEmpty_iff] at hguard
    obtain ⟨hpack, -, -, houtput, hpackDigests, hcrcs, -⟩ := hguard
    exact ⟨hpack, houtput, hpackDigests, hcrcs, by simp⟩
  · cases h
  · rename_i hguard
    simp only [not_or, not_and_or, not_not, List.isEmpty_iff] at hguard
    obtain ⟨hpack, -, -, houtput, hpackDigests, hcrcs, hsub⟩ := hguard
    refine ⟨hpack, houtput, hpackDigests, hcrcs, ?_⟩
    intro info' hinfo'
    cases hinfo'
    simpa [Bool.and_eq_true, and_assoc] using hsub

theorem FolderPlans.Walk.partitioned {pack : PackInfo} {unpack : UnpackInfo} {info? : Option SubstreamInfo}
    {last : FolderPlans} {folders : List FolderLayout}
    (hwalk : (FolderPlans.new pack unpack info?).Walk folders last)
    (hindex : last.folderIndex = last.unpackInfo.numFoldersUsize) (hvalid : last.validateComplete = .ok ()) :
    Partitioned pack unpack info? folders := by
  obtain ⟨hpackSame, hunpackSame, hsubSame, -⟩ := hwalk.tables
  obtain ⟨hpackEnd, houtputEnd, hpackDigests, hcrcs, hsub⟩ := FolderPlans.complete hvalid
  rw [hpackSame] at hpackEnd hpackDigests
  rw [hunpackSame] at houtputEnd hcrcs hindex
  rw [hunpackSame, hsubSame] at hsub
  -- each counter stands at the end of its table, so a front of it is all of it
  have hcount : folders.length = unpack.numFoldersUsize := by
    have hlength := hwalk.folderIndex
    rw [hindex] at hlength
    simpa [FolderPlans.new] using hlength.symm
  have hpackSizes : pack.packSize = folders.flatMap fun folder => folder.streams.sizes := by
    have htake := hwalk.packSizes
    rw [hpackEnd, List.take_length] at htake
    simpa [FolderPlans.new] using htake
  have hoffset : last.packOffset = (pack.packSize.map UInt64.toNat).sum := by
    rw [hpackSizes, hwalk.packOffset]
    exact Nat.zero_add _
  refine ⟨hpackSizes, ?_, hcount, ?_, ?_, ?_, ?_, ?_, ?_⟩
  · rcases hpackDigests with hnone | hlen
    · exact Or.inl hnone
    · have htake := hwalk.packDigests hlen
      rw [hpackEnd, ← hlen, List.take_length] at htake
      exact Or.inr (by simpa [FolderPlans.new] using htake)
  · intro i folder hfolder
    simpa [FolderPlans.new] using hwalk.parsed i folder hfolder
  · have htake := hwalk.coderSizes
    rw [houtputEnd, List.take_length] at htake
    simpa [FolderPlans.new] using htake
  · rcases hcrcs with hnone | hlen
    · exact Or.inl hnone
    · have htake := hwalk.crcs hlen
      rw [hindex, ← hlen, List.take_length] at htake
      exact Or.inr (by simpa [FolderPlans.new] using htake)
  · intro info hinfo
    obtain ⟨hcounts, hsizes, hdigests⟩ := hsub info hinfo
    refine ⟨?_, ?_, ?_⟩
    · have htake := hwalk.counts hinfo
      rw [hindex, ← hcounts, ← List.length_map (f := UInt64.toNat), List.take_length] at htake
      simpa [FolderPlans.new] using htake
    · have htake := hwalk.explicitSizes hinfo
      rw [← hsizes, List.take_length] at htake
      simpa [FolderPlans.new] using htake
    · by_cases hnone : info.digests = []
      · rw [hnone]
        exact (hwalk.no_digests hinfo hnone).symm
      · have hend := hdigests.resolve_left hnone
        have htake := hwalk.digests hinfo hnone
        rw [← hend, List.take_length] at htake
        simpa [FolderPlans.new] using htake
  · have htiles := hwalk.packed_tiles
    rw [hoffset] at htiles
    exact htiles.partition
  · intro folder hfolder hsome
    exact (hwalk.substreams_tiles folder hfolder hsome).partition

theorem FolderLayouts.partitioned {streams : StreamInfo} {layouts : FolderLayouts}
    {folders : List FolderLayout} (hfor : FolderLayouts.forStreams streams = .ok layouts)
    (h : layouts.toList = .ok folders) : ∃ pack unpack, streams.packInfo = some pack ∧
      streams.unpackInfo = some unpack ∧ Partitioned pack unpack streams.substreamInfo folders := by
  obtain ⟨last, hwalk, hindex, hvalid⟩ := FolderLayouts.toList_walk hfor h
  obtain ⟨pack, unpack, hpack, hunpack, hplans, -⟩ := FolderLayouts.forStreams_eq_ok hfor
  rw [hplans] at hwalk
  exact ⟨pack, unpack, hpack, hunpack, hwalk.partitioned hindex hvalid⟩

/-! Sums and positions on the way -/

theorem addArity_outputs {arities : List StreamArity} : ∀ {start total : ℕ × ℕ},
    arities.foldlM addArity start = .ok total →
      total.2 = start.2 + (arities.map StreamArity.outputs).sum ∧
        (start.2 ≤ MAX_FOLDER_STREAMS → total.2 ≤ MAX_FOLDER_STREAMS) := by
  induction arities with
  | nil =>
    intro start total h
    cases h
    exact ⟨rfl, fun h => h⟩
  | cons arity arities ih =>
    intro start total h
    obtain ⟨next, hnext, h⟩ := except_bind_eq_ok.mp h
    unfold addArity at hnext
    dsimp only at hnext
    split at hnext
    · rename_i hle
      cases hnext
      obtain ⟨htotal, hsmall⟩ := ih h
      rw [List.map_cons, List.sum_cons, htotal, Nat.add_assoc]
      rw [htotal] at hsmall
      exact ⟨rfl, fun _ => by simpa [Nat.add_assoc] using hsmall hle.2⟩
    · cases hnext

theorem tryFrom_outputs {coder : CoderInfo} {arity : StreamArity} (h : StreamArity.tryFrom coder = .ok arity) :
    arity.outputs = coder.numOutStreams.toNat := by
  unfold StreamArity.tryFrom at h
  dsimp only at h
  split at h
  · split at h
    · cases h
    · split at h <;> cases h
      rfl
  · split at h <;> cases h
    rfl

theorem mapM_outputs {coders : List CoderInfo} : ∀ {arities : List StreamArity},
    coders.mapM StreamArity.tryFrom = .ok arities →
      arities.map StreamArity.outputs = coders.map fun coder => coder.numOutStreams.toNat := by
  induction coders with
  | nil =>
    intro arities h
    cases h
    rfl
  | cons coder coders ih =>
    intro arities h
    rw [List.mapM_cons] at h
    obtain ⟨arity, harity, h⟩ := except_bind_eq_ok.mp h
    obtain ⟨rest, hrest, h⟩ := except_bind_eq_ok.mp h
    cases h
    rw [List.map_cons, ih hrest, tryFrom_outputs harity, List.map_cons]

theorem Folder.totalOutStreams_le {folder : Folder} {graph : FolderGraph} (h : folder.graph = .ok graph) :
    folder.totalOutStreams ≤ MAX_FOLDER_STREAMS := by
  unfold Folder.graph at h
  obtain ⟨owners, howners, -⟩ := except_bind_eq_ok.mp h
  unfold StreamOwners.fromCoders at howners
  obtain ⟨arities, harities, howners⟩ := except_bind_eq_ok.mp howners
  obtain ⟨totals, htotals, -⟩ := except_bind_eq_ok.mp howners
  obtain ⟨hsum, hle⟩ := addArity_outputs htotals
  have htotal := hle (Nat.zero_le _)
  rw [hsum, mapM_outputs harities, Nat.zero_add] at htotal
  exact htotal

theorem UnpackInfo.totalOutStreams_le {info : UnpackInfo} {i : ℕ} {folder : Folder} {graph : FolderGraph}
    (h : info.parseFolderWithGraph i = .ok (folder, graph)) :
    folder.totalOutStreams ≤ MAX_FOLDER_STREAMS := by
  unfold UnpackInfo.parseFolderWithGraph at h
  obtain ⟨bytes, -, h⟩ := except_bind_eq_ok.mp h
  split at h
  · cases h
  · split at h
    · cases h
    · obtain ⟨graph', hgraph, h⟩ := except_bind_eq_ok.mp h
      cases h
      exact Folder.totalOutStreams_le hgraph

def Substreams.after : ℕ → Substreams → Substreams
  | 0, streams => streams
  | n + 1, streams =>
    match streams.next with
    | none => streams
    | some (_, rest) => Substreams.after n rest

def FolderLayouts.after : ℕ → FolderLayouts → FolderLayouts
  | 0, layouts => layouts
  | n + 1, layouts => FolderLayouts.after n layouts.next.2

/-- In a folder that was handed out, no position passes the end of its table and no sum or range
exceeds 64 bits. -/
structure FolderLayout.InRange (folder : FolderLayout) : Prop where
  packed : ∀ stream ∈ folder.streams.iter, stream.start ≤ stream.stop ∧ stream.stop < 2 ^ 64
  packedSize : (folder.streams.sizes.map UInt64.toNat).sum < 2 ^ 64
  len : folder.layout.len < usizeLimit
  substreams : ∀ n, (folder.substreams.after n).position ≤ folder.layout.len ∧
    ∀ stream rest, (folder.substreams.after n).next = some (stream, rest) →
      stream.start ≤ stream.stop ∧ stream.stop < 2 ^ 64

theorem Substreams.next_some {streams rest : Substreams} {stream : Substream}
    (hle : streams.position ≤ streams.layout.len) (h : streams.next = some (stream, rest)) :
    rest.layout = streams.layout ∧ rest.position ≤ rest.layout.len ∧
      streams.toList = stream :: rest.toList := by
  have hpos : 0 < streams.remaining := by
    rcases Nat.eq_or_lt_of_le hle with heq | hlt
    · unfold Substreams.next at h
      rw [if_pos heq] at h
      cases h
    · exact Nat.sub_pos_of_lt hlt
  obtain ⟨size, hnext⟩ := Substreams.next_eq hpos
  rw [hnext] at h
  cases h
  have hlt : streams.position < streams.layout.len := Nat.lt_of_sub_pos hpos
  refine ⟨rfl, hlt, Substreams.toList_of_next hnext ?_⟩
  unfold Substreams.remaining
  dsimp only
  omega

theorem Substreams.after_bounds {n : ℕ} : ∀ {streams : Substreams},
    streams.position ≤ streams.layout.len →
      (streams.after n).layout = streams.layout ∧ (streams.after n).position ≤ streams.layout.len ∧
        ∀ stream ∈ (streams.after n).toList, stream ∈ streams.toList := by
  induction n with
  | zero => exact fun h => ⟨rfl, h, fun _ h => h⟩
  | succ n ih =>
    intro streams h
    rw [Substreams.after]
    rcases hnext : streams.next with _ | ⟨stream, rest⟩
    · exact ⟨rfl, h, fun _ h => h⟩
    · obtain ⟨hlayout, hrest, htoList⟩ := Substreams.next_some h hnext
      obtain ⟨hsame, hle, hmem⟩ := ih hrest
      refine ⟨hsame.trans hlayout, hlayout ▸ hle, fun s hs => ?_⟩
      rw [htoList]
      exact List.mem_cons_of_mem _ (hmem s hs)

theorem FolderPlans.Takes.inRange {plans after : FolderPlans} {folder : FolderLayout}
    (h : plans.Takes folder after) (hoffset : plans.packOffset < 2 ^ 64) :
    folder.InRange ∧ after.packOffset < 2 ^ 64 := by
  obtain ⟨hsum, hsmall⟩ := sumSizes_eq_ok h.packOffset
  have hafter := hsmall hoffset
  have hbase := h.limits.2.2.2
  obtain ⟨-, -, -, -, -, -, -, hdigestBase⟩ := h.layout
  refine ⟨⟨?_, by omega, by omega, ?_⟩, hafter⟩
  · intro stream hstream
    obtain ⟨-, hle, hstop⟩ := h.packed_tiles.bounds _ (List.mem_map_of_mem hstream)
    exact ⟨hle, lt_of_le_of_lt hstop hafter⟩
  · intro n
    obtain ⟨hlayout, hle, hmem⟩ :=
      @Substreams.after_bounds n folder.substreams (Nat.zero_le folder.layout.len)
    refine ⟨hle, fun stream rest hnext => ?_⟩
    have hfirst := (Substreams.next_some (by rw [hlayout]; exact hle) hnext).2.2
    have hin : stream ∈ folder.substreams.toList := hmem stream (by rw [hfirst]; simp)
    have hsome : folder.layout.len ≠ 0 := by
      intro hzero
      have hlength := folder.substreams.length_toList
      have hremaining : folder.substreams.remaining = 0 := by
        change folder.layout.len - 0 = 0
        rw [hzero]
      rw [hremaining] at hlength
      rw [List.length_eq_zero_iff.mp hlength] at hin
      cases hin
    obtain ⟨-, hle', hstop⟩ := (h.substreams_tiles hsome).bounds _ (List.mem_map_of_mem hin)
    exact ⟨hle', lt_of_le_of_lt hstop folder.unpackSize.toNat_lt⟩

/-- How far the walk over the folders of `unpack` can be, whether folders failed or not. -/
structure FolderPlans.Sane (unpack : UnpackInfo) (plans : FolderPlans) : Prop where
  unpackInfo : plans.unpackInfo = unpack
  folderIndex : plans.folderIndex ≤ unpack.numFoldersUsize
  packOffset : plans.packOffset < 2 ^ 64

theorem FolderPlans.Sane.next {unpack : UnpackInfo} {layouts : FolderLayouts}
    (h : layouts.plans.Sane unpack) : layouts.next.2.plans.Sane unpack ∧
      ∀ folder, layouts.next.1 = some (.ok folder) → folder.InRange := by
  unfold FolderLayouts.next FolderPlans.next
  by_cases hfinished : layouts.plans.finished = true
  · rw [if_pos hfinished]
    exact ⟨h, by simp⟩
  rw [if_neg hfinished]
  by_cases hend : layouts.plans.folderIndex = layouts.plans.unpackInfo.numFoldersUsize
  · rw [if_pos hend]
    rcases layouts.plans.validateComplete with e | u
    · exact ⟨⟨h.unpackInfo, h.folderIndex, h.packOffset⟩, by simp⟩
    · exact ⟨⟨h.unpackInfo, h.folderIndex, h.packOffset⟩, by simp⟩
  rw [if_neg hend]
  rcases hfolder : layouts.plans.nextFolder with e | ⟨folder, after⟩
  · exact ⟨⟨h.unpackInfo, h.folderIndex, h.packOffset⟩, by simp⟩
  · have htakes := FolderPlans.takes_of_nextFolder hfolder
    obtain ⟨hrange, hoffset⟩ := htakes.inRange h.packOffset
    have hlt := htakes.folderIndex_lt
    rw [h.unpackInfo] at hlt
    refine ⟨⟨htakes.tables.2.1.trans h.unpackInfo, ?_, hoffset⟩, ?_⟩
    · rw [htakes.folderIndex]
      exact hlt
    · intro folder' hsame
      cases hsame
      exact hrange

theorem FolderPlans.Sane.after {unpack : UnpackInfo} {n : ℕ} : ∀ {layouts : FolderLayouts},
    layouts.plans.Sane unpack → (layouts.after n).plans.Sane unpack := by
  induction n with
  | zero => exact fun h => h
  | succ n ih => exact fun h => ih h.next.1

/-! The offsets of a parsed header -/

theorem recordOffset_appends {data s r : Slice} {offsets : List UInt32} {v : Option (List UInt32)}
    (h : recordOffset data (some offsets) s = .ok (v, r)) : ∃ offset, v = some (offsets ++ [offset]) := by
  obtain ⟨folders, t, -, h⟩ := Parser.bind_eq_ok.mp h
  obtain ⟨offset, u, -, h⟩ := Parser.bind_eq_ok.mp h
  cases h
  exact ⟨offset, rfl⟩

theorem iterate_offsets {data : Slice} {n : ℕ} : ∀ {acc blocks : FolderBlocks} {s r : Slice},
    acc.offsets.isSome = true → iterate (scanFolderBlock data) n acc s = .ok (blocks, r) →
      blocks.offsets.isSome = true := by
  induction n with
  | zero =>
    intro acc blocks s r hsome h
    cases h
    exact hsome
  | succ n ih =>
    intro acc blocks s r hsome h
    obtain ⟨next, t, hnext, h⟩ := Parser.bind_eq_ok.mp h
    refine ih ?_ h
    obtain ⟨offsets, hoffsets⟩ := Option.isSome_iff_exists.mp hsome
    unfold scanFolderBlock at hnext
    rw [hoffsets] at hnext
    obtain ⟨recorded, u, hrecorded, hnext⟩ := Parser.bind_eq_ok.mp hnext
    obtain ⟨offset, rfl⟩ := recordOffset_appends hrecorded
    obtain ⟨outStreams, w, -, hnext⟩ := Parser.bind_eq_ok.mp hnext
    split at hnext <;> cases hnext
    rfl

theorem UnpackInfo.parse_offsets {backing s r : Slice} {externalData : List Slice} {info : UnpackInfo}
    (h : UnpackInfo.parseWithExternal backing externalData s = .ok (info, r)) : info.folderOffsets ≠ [] := by
  obtain ⟨defs, t, hdefs, h⟩ := Parser.bind_eq_ok.mp h
  obtain ⟨⟨sizes, digests⟩, u, -, h⟩ := Parser.bind_eq_ok.mp h
  cases h
  unfold UnpackInfo.definitions at hdefs
  obtain ⟨⟨numFolders, location⟩, t1, -, hdefs⟩ := Parser.bind_eq_ok.mp hdefs
  obtain ⟨source, t2, -, hdefs⟩ := Parser.bind_eq_ok.mp hdefs
  obtain ⟨⟨blocks, consumed⟩, t3, hblocks, hdefs⟩ := Parser.bind_eq_ok.mp hdefs
  obtain ⟨folderData, t4, -, hdefs⟩ := Parser.bind_eq_ok.mp hdefs
  obtain ⟨u1, t5, -, hdefs⟩ := Parser.bind_eq_ok.mp hdefs
  cases hdefs
  obtain ⟨hscan, -⟩ := ofExcept_eq_ok.mp hblocks
  rcases hblocksOk : scanFolderBlocks source.bytes numFolders.toNat (some []) with e | v <;>
    rw [hblocksOk] at hscan <;> cases hscan
  unfold scanFolderBlocks at hblocksOk
  obtain ⟨⟨walked, rest⟩, hwalk, hblocksOk⟩ := except_bind_eq_ok.mp hblocksOk
  cases hblocksOk
  obtain ⟨counted, w, hcounted, hwalk⟩ := Parser.bind_eq_ok.mp hwalk
  obtain ⟨offsets, hoffsets⟩ := Option.isSome_iff_exists.mp (iterate_offsets rfl hcounted)
  rw [hoffsets] at hwalk
  obtain ⟨recorded, x, hrecorded, hwalk⟩ := Parser.bind_eq_ok.mp hwalk
  obtain ⟨offset, rfl⟩ := recordOffset_appends hrecorded
  cases hwalk
  simp

theorem StreamInfo.parse_offsets {backing s r : Slice} {externalData : List Slice} {streams : StreamInfo}
    (h : StreamInfo.parseWithExternal backing externalData s = .ok (streams, r)) :
    ∀ unpack, streams.unpackInfo = some unpack → unpack.folderOffsets ≠ [] := by
  -- The loop over the sections keeps it: only the section of the folders sets the offsets.
  have hturn : ∀ (acc : StreamInfo) (s r : Slice) (turn : Turn StreamInfo StreamInfo),
      (∀ unpack, acc.unpackInfo = some unpack → unpack.folderOffsets ≠ []) →
      StreamInfo.turn backing externalData acc s = .ok (turn, r) →
        match turn with
        | .again acc' => ∀ unpack, acc'.unpackInfo = some unpack → unpack.folderOffsets ≠ []
        | .done acc' => ∀ unpack, acc'.unpackInfo = some unpack → unpack.folderOffsets ≠ [] := by
    intro acc s r turn hacc hturn
    unfold StreamInfo.turn at hturn
    obtain ⟨tag, t, -, hturn⟩ := Parser.bind_eq_ok.mp hturn
    cases tag with
    | END =>
      obtain ⟨_, _, -, hturn⟩ := Parser.bind_eq_ok.mp hturn
      cases hturn
      exact hacc
    | PackInfo =>
      obtain ⟨pack, _, -, hturn⟩ := Parser.bind_eq_ok.mp hturn
      cases hturn
      exact hacc
    | UnPackInfo =>
      obtain ⟨info, _, hinfo, hturn⟩ := Parser.bind_eq_ok.mp hturn
      cases hturn
      intro unpack hunpack
      cases hunpack
      exact UnpackInfo.parse_offsets hinfo
    | SubStreamsInfo =>
      obtain ⟨info, _, -, hturn⟩ := Parser.bind_eq_ok.mp hturn
      cases hturn
      exact hacc
    | _ =>
      obtain ⟨_, _, -, hturn⟩ := Parser.bind_eq_ok.mp hturn
      obtain ⟨_, _, -, hturn⟩ := Parser.bind_eq_ok.mp hturn
      cases hturn
      exact hacc
  refine loop_ok (P := fun acc _ => ∀ unpack, acc.unpackInfo = some unpack → unpack.folderOffsets ≠ [])
    (Q := fun acc _ => ∀ unpack, acc.unpackInfo = some unpack → unpack.folderOffsets ≠ [])
    (fun acc acc' s r hacc hstep => hturn acc s r (.again acc') hacc hstep)
    (fun acc v s r hacc hstep => hturn acc s r (.done v) hacc hstep) ?_ h
  intro unpack hunpack
  cases hunpack

/-- Whatever a header holds, handing out its folders overflows nowhere; and when no folder fails, the
tables are used up and the ranges have no gaps. -/
theorem layouts_partition {backing input rest : Slice} {externalData : List Slice} {streams : StreamInfo}
    (hparse : StreamInfo.parseWithExternal backing externalData input = .ok (streams, rest)) :
    (∀ unpack, streams.unpackInfo = some unpack → 0 < unpack.folderOffsets.length ∧
      ∀ i folder graph, unpack.parseFolderWithGraph i = .ok (folder, graph) →
        folder.totalOutStreams < usizeLimit) ∧
    ∀ layouts, FolderLayouts.forStreams streams = .ok layouts →
      (∀ n, ((layouts.after n).plans.folderIndex ≠ (layouts.after n).plans.unpackInfo.numFoldersUsize →
          (layouts.after n).plans.folderIndex + 1 < usizeLimit) ∧
        ∀ folder, (layouts.after n).next.1 = some (.ok folder) → folder.InRange) ∧
      ∀ folders, layouts.toList = .ok folders → ∃ pack unpack, streams.packInfo = some pack ∧
        streams.unpackInfo = some unpack ∧ Partitioned pack unpack streams.substreamInfo folders := by
  constructor
  · intro unpack hunpack
    refine ⟨List.length_pos_iff.mpr (StreamInfo.parse_offsets hparse unpack hunpack), ?_⟩
    intro i folder graph hfolder
    have hle := UnpackInfo.totalOutStreams_le hfolder
    exact hle.trans_lt (by decide)
  · intro layouts hlayouts
    obtain ⟨pack, unpack, -, -, hplans, -, hcount, -⟩ := FolderLayouts.forStreams_eq_ok hlayouts
    have hsane : layouts.plans.Sane unpack := by
      rw [hplans]
      exact ⟨rfl, Nat.zero_le _, Nat.two_pow_pos 64⟩
    refine ⟨fun n => ?_, fun folders hfolders => FolderLayouts.partitioned hlayouts hfolders⟩
    have hafter := FolderPlans.Sane.after (n := n) hsane
    refine ⟨fun hne => ?_, hafter.next.2⟩
    have hle := hafter.folderIndex
    have hlimit : unpack.numFoldersUsize < usizeLimit := hcount ▸ unpack.numFolders.toNat_lt
    rw [hafter.unpackInfo] at hne
    omega

def mixedSection : List UInt8 :=
  [0x06, 0x00, 0x03, 0x09, 0x00, 0x02, 0x03, 0x00,
   0x07, 0x0b, 0x03, 0x00, 0x01, 0x01, 0x00, 0x01, 0x01, 0x00, 0x01, 0x01, 0x00,
   0x0c, 0x00, 0x02, 0x03, 0x00,
   0x08, 0x0d, 0x00, 0x01, 0x02, 0x09, 0x01, 0x00, 0x00]

def hasThreeFolders : Except NomErr (StreamInfo × Slice) → Bool
  | .ok (streams, _) =>
    match FolderLayouts.forStreams streams with
    | .ok layouts =>
      match layouts.toList with
      | .ok folders => folders.length == 3
      | .error _ => false
    | .error _ => false
  | .error _ => false

theorem layouts_partition_mixed : ∃ streams layouts folders,
    FolderLayouts.forStreams streams = .ok layouts ∧ layouts.toList = .ok folders ∧
      folders.length = 3 ∧ ∃ pack unpack, streams.packInfo = some pack ∧
        streams.unpackInfo = some unpack ∧ Partitioned pack unpack streams.substreamInfo folders := by
  have hrun : hasThreeFolders (StreamInfo.parseWithExternal ⟨0, mixedSection⟩ [] ⟨0, mixedSection⟩) = true := by
    decide +kernel
  unfold hasThreeFolders at hrun
  rcases hparse : StreamInfo.parseWithExternal ⟨0, mixedSection⟩ [] ⟨0, mixedSection⟩ with e | ⟨streams, rest⟩ <;>
    rw [hparse] at hrun
  · cases hrun
  dsimp only at hrun
  rcases hfor : FolderLayouts.forStreams streams with e | layouts <;> rw [hfor] at hrun
  · cases hrun
  dsimp only at hrun
  rcases hlist : layouts.toList with e | folders <;> rw [hlist] at hrun
  · cases hrun
  exact ⟨streams, layouts, folders, hfor, hlist, by simpa using hrun,
    ((layouts_partition hparse).2 layouts hfor).2 folders hlist⟩

end R7z
