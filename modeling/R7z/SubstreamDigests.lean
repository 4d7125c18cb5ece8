import R7z.LayoutsRoundTrip
import R7z.LazySections

/-! Which substreams have a digest of their own. The format leaves out the digest of a folder's only
stream when the folder itself has one; the parser, the scanner and the writer count every stream. -/

namespace R7z

open Wire Wire.Parser Write

/-! What every parser of the section consumes -/

theorem optionals_scans {W : Window} (defined : ℕ → Bool) (n : ℕ) :
    Scans W (optionals defined leU32 n) := leU32_scans.optionals defined n

theorem parseDigests_scans {W : Window} (n : ℕ) : Scans W (parseDigests n) :=
  leU8_scans.bind fun _ => .ite
    (fun _ => takeBytes_scans _ fun _ _ _ => optionals_scans _ n) fun _ => optionals_scans _ n

theorem checkRemaining_shortens (n : ℕ) : Shortens (checkRemaining n) :=
  Shortens.input.bind fun _ => .of_scans (.ite (fun _ => .fail _) fun _ => .pure ())

theorem parseStreamDigests_shortens (n : ℕ) : Shortens (parseStreamDigests n) := by
  intro s v r h
  obtain ⟨u, hu⟩ := ((parseStreamDigests_agrees (W := Window.all) n).ok_iff trivial r).mpr ⟨v, h⟩
  exact (scanDigests_scans n).length_le hu

theorem counts_scans {W : Window} (n : ℕ) : Scans W (count sevenzipVaruint64Decode n) :=
  Scans.count sevenzipVaruint64Decode_scans n

theorem substreamTurn_progresses (n : ℕ) (acc : SubstreamInfo) :
    Progresses (SubstreamInfo.turn n acc) := by
  refine Property.parse_progresses.bind_shortens fun tag => ?_
  have htotal (counts : List UInt64) : Shortens (checkedSubstreamTotal counts) := by
    rw [checkedSubstreamTotal_eq]
    exact .of_scans (checkedUsize_scans _)
  cases tag with
  | END => exact .of_scans (.pure _)
  | NumUnPackStream =>
    exact (Shortens.of_scans (counts_scans n)).bind fun counts => (htotal counts).bind fun _ =>
      .of_scans (.pure _)
  | Size =>
    have hsizes : Shortens (checkedSubstreamSizeCount acc.numUnpackStreamsPerFolder) := by
      rw [checkedSubstreamSizeCount_eq]
      exact .of_scans (checkedUsize_scans _)
    exact hsizes.bind fun k => (checkRemaining_shortens k).bind fun _ =>
      (Shortens.of_scans (counts_scans k)).bind fun _ => .of_scans (.pure _)
  | CRC =>
    have hlimit (total : ℕ) : Shortens (checkSubstreamDigestLimit total) :=
      .of_scans (.ite (fun _ => .fail _) fun _ => .pure ())
    exact (htotal _).bind fun total => (hlimit total).bind fun _ =>
      (parseStreamDigests_shortens total).bind fun _ => .of_scans (.pure _)
  | _ => exact .of_scans (skipSection_scans.bind fun _ => .pure _)

theorem substreamInfo_progresses (n : ℕ) : Progresses (SubstreamInfo.parse n) :=
  (expectProperty_progresses _).bind_shortens fun _ =>
    (Progresses.loop (substreamTurn_progresses n) _).shortens

theorem packInfo_progresses : Progresses PackInfo.parse := by
  have hturn (n : ℕ) (acc : List (Option UInt32)) : Progresses (PackInfo.turn n acc) := by
    refine Property.parse_progresses.bind_scans fun tag => ?_
    cases tag with
    | END => exact .pure _
    | CRC => exact (parseDigests_scans n).bind fun _ => .pure _
    | _ => exact skipSection_scans.bind fun _ => .pure _
  have hvaruint : Shortens sevenzipVaruint64Decode := .of_scans sevenzipVaruint64Decode_scans
  refine (expectProperty_progresses _).bind_shortens fun _ => hvaruint.bind fun _ =>
    hvaruint.bind fun n => (Shortens.of_scans (expectProperty_scans _)).bind fun _ =>
    (Shortens.of_scans (counts_scans n.toNat)).bind fun _ => ?_
  exact (Progresses.loop (hturn n.toNat) []).shortens.bind fun _ => .of_scans (.pure _)

theorem unpackInfo_progresses (backing : Slice) (externalData : List Slice) :
    Progresses (UnpackInfo.parseWithExternal backing externalData) := by
  have hturn (total n : ℕ) (acc : List UInt64 × List (Option UInt32)) :
      Progresses (UnpackInfo.turn total n acc) := by
    refine Property.parse_progresses.bind_scans fun tag => ?_
    cases tag with
    | END => exact .pure _
    | CodersUnPackSize => exact (counts_scans total).bind fun _ => .pure _
    | CRC => exact (parseDigests_scans n).bind fun _ => .pure _
    | _ => exact skipSection_scans.bind fun _ => .pure _
  have hresolve (location : FolderLocation) : Shortens (FolderSource.resolve location externalData) := by
    cases location with
    | inline => exact Shortens.input.bind fun _ => .of_scans (.pure _)
    | external index =>
      unfold FolderSource.resolve
      dsimp only
      split
      · exact .of_scans (.pure _)
      · exact .of_scans (.fail _)
  have hdefs : Progresses (UnpackInfo.definitions backing externalData) :=
    parseFolderDeclaration_progresses.bind_shortens fun _ => (hresolve _).bind fun source =>
      (Shortens.of_scans (.ofExcept _)).bind fun blocks => (Shortens.of_scans (.ofExcept _)).bind fun _ =>
      (Shortens.of_scans (source.remainingHeader_scans blocks.2)).bind fun _ => .of_scans (.pure _)
  exact hdefs.bind_shortens fun defs =>
    (Progresses.loop (hturn defs.totalOutStreams defs.numFolders.toNat) _).shortens.bind fun _ =>
      .of_scans (.pure _)

theorem streamTurn_progresses (backing : Slice) (externalData : List Slice) (acc : StreamInfo) :
    Progresses (StreamInfo.turn backing externalData acc) := by
  refine Progresses.peek_bind fun tag => ?_
  cases tag with
  | END => exact Property.parse_progresses.bind_scans fun _ => .pure _
  | PackInfo => exact packInfo_progresses.bind_scans fun _ => .pure _
  | UnPackInfo => exact (unpackInfo_progresses backing externalData).bind_scans fun _ => .pure _
  | SubStreamsInfo => exact (substreamInfo_progresses _).bind_scans fun _ => .pure _
  | _ =>
    exact Property.parse_progresses.bind_scans fun _ => skipSection_scans.bind fun _ => .pure _

/-! Digests that are read for more streams than they were written for -/

def padded (total : ℕ) (crcs : List (Option UInt32)) : List (Option UInt32) :=
  crcs ++ List.replicate (total - crcs.length) none

theorem padded_length {total : ℕ} {crcs : List (Option UInt32)} (h : crcs.length ≤ total) :
    (padded total crcs).length = total := by
  rw [padded, List.length_append, List.length_replicate]
  omega

/-- A table with room left in its bitmap is also the table of the padded digests. -/
theorem digestBytes_padded {total : ℕ} {crcs : List (Option UInt32)} (hle : crcs.length ≤ total)
    (hroom : (total + 7) / 8 = (crcs.length + 7) / 8) (hall : ¬crcs.all Option.isSome) :
    digestBytes (padded total crcs) = digestBytes crcs := by
  have hall' : ¬(padded total crcs).all Option.isSome := by
    unfold padded
    rw [List.all_append, Bool.and_eq_true]
    exact fun h => hall h.1
  have hbits : boolsToBytes ((padded total crcs).map Option.isSome) =
      boolsToBytes (crcs.map Option.isSome) := by
    unfold padded boolsToBytes
    rw [List.map_append, List.map_replicate]
    refine packBits_append_false _ _ ?_
    rw [List.length_map]
    omega
  have hvalues : (padded total crcs).filterMap id = crcs.filterMap id := by
    unfold padded
    rw [List.filterMap_append]
    simp
  unfold digestBytes
  rw [if_neg hall', if_neg hall, hbits, hvalues]

theorem parseStreamDigests_short {total a : ℕ} {crcs digests : List (Option UInt32)} {tail : List UInt8}
    {r : Slice} (hlt : crcs.length < total) (htotal : total * 4 < usizeLimit)
    (hrun : parseStreamDigests total ⟨a, digestBytes crcs ++ tail⟩ = .ok (digests, r))
    (htail : tail.length ≤ r.bytes.length) :
    digests = padded total crcs ∧ r = ⟨a + (digestBytes crcs).length, tail⟩ := by
  by_cases hall : crcs.all Option.isSome
  · -- Four bytes for every stream reach into what follows the table.
    exfalso
    have hwidth := (optionals_all_width crcs.length).length_eq (allCrcs_read hall)
    unfold digestBytes at hrun
    rw [if_pos hall, List.append_assoc] at hrun
    obtain ⟨flag, s₁, hflag, hrest⟩ := bind_eq_ok.mp hrun
    cases hflag
    rw [if_neg (by decide)] at hrest
    obtain ⟨n, s₂, hn, hrest₂⟩ := bind_eq_ok.mp hrest
    obtain ⟨_, rfl, rfl⟩ := checkedUsize_eq_ok.mp hn
    obtain ⟨u, s₃, hu, hread⟩ := bind_eq_ok.mp hrest₂
    have hshort : s₃.bytes.length ≤ (_ ++ tail).length := checkRemaining_shortens _ _ _ _ hu
    have hleft := (optionals_all_width total).left hread
    rw [List.length_append, hwidth] at hshort
    omega
  · have hbits : (boolsToBytes (crcs.map Option.isSome)).length = (crcs.length + 7) / 8 := by
      rw [boolsToBytes, packBits_length, List.length_map]
    set bitmap := boolsToBytes (crcs.map Option.isSome) with hbitmap
    set values := (crcs.filterMap id).flatMap fun crc => toLeBytes 4 crc.toNat with hvalues
    have hwidth : values.length = (List.range crcs.length).countP (bitmapIsSet bitmap) * 4 :=
      (optionals_width _ _).length_eq definedCrcs_read
    have hbytes : digestBytes crcs = [0] ++ (bitmap ++ values) := by
      unfold digestBytes
      rw [if_neg hall, List.append_assoc]
    have hroom : (total + 7) / 8 = (crcs.length + 7) / 8 := by
      -- A longer bitmap starts with the one that was written, so it selects at least as many digests.
      rw [hbytes, List.append_assoc, List.append_assoc] at hrun
      obtain ⟨flag, s₁, hflag, hrest⟩ := bind_eq_ok.mp hrun
      cases hflag
      rw [if_pos rfl] at hrest
      obtain ⟨taken, s₂, htake, hrest₂⟩ := bind_eq_ok.mp hrest
      obtain ⟨hlen, _, hsplit, _⟩ := take_eq_ok.mp htake
      obtain ⟨n, s₃, hn, hrest₃⟩ := bind_eq_ok.mp hrest₂
      obtain ⟨_, rfl, rfl⟩ := checkedUsize_eq_ok.mp hn
      obtain ⟨u, s₄, hu, hread⟩ := bind_eq_ok.mp hrest₃
      have hshort := checkRemaining_shortens _ _ _ _ hu
      have hleft := (optionals_width (bitmapIsSet taken.bytes) total).left hread
      have hsplit : bitmap ++ (values ++ tail) = taken.bytes ++ s₃.bytes := hsplit
      have hbytes' := congrArg List.length hsplit
      simp only [List.length_append] at hbytes'
      have hcount : (List.range crcs.length).countP (bitmapIsSet bitmap) ≤
          (List.range total).countP (bitmapIsSet taken.bytes) := by
        have hprefix : bitmap <+: taken.bytes := by
          have hfront : bitmap <+: taken.bytes ++ s₃.bytes := hsplit ▸ List.prefix_append _ _
          refine List.prefix_of_prefix_length_le hfront (List.prefix_append _ _) ?_
          omega
        obtain ⟨more, hmore⟩ := hprefix
        have hsame : (List.range crcs.length).countP (bitmapIsSet bitmap) =
            (List.range crcs.length).countP (bitmapIsSet taken.bytes) := by
          refine List.countP_congr fun i hi => ?_
          have hi := List.mem_range.mp hi
          unfold bitmapIsSet
          rw [← hmore, bitAt_append_left _ _ (by omega)]
        rw [hsame]
        exact (List.range_sublist.mpr hlt.le).countP_le
      omega
    have hpadded := padded_length hlt.le
    have hread := @parseStreamDigests_reads Window.all (padded total crcs) (by rwa [hpadded]) a tail trivial
    rw [hpadded, digestBytes_padded hlt.le hroom hall] at hread
    rw [hread] at hrun
    cases hrun
    exact ⟨rfl, rfl⟩

/-! The section as the format has it -/

/-- The CRC of a folder's only stream is that of the folder. -/
def crcKnown (folder : CompletedFolder) : Bool :=
  folder.fileIndices.length == 1 && folder.folderCrc.isSome

/-- The digests the format writes: those of the streams whose CRC is not known from their folder. -/
def unknownCrcs (folders : List CompletedFolder) : List (Option UInt32) :=
  folders.flatMap fun folder => if crcKnown folder then [] else folder.fileCrcs

def streamCrcs (folder : CompletedFolder) : List (Option UInt32) :=
  if crcKnown folder then [folder.folderCrc] else folder.fileCrcs

/-- The stream section of a writer that follows the format. -/
def formatStreams (folders : List CompletedFolder) : List UInt8 :=
  writePackInfo folders ++ (writeUnpackInfo folders ++
    (substreamSection folders (unknownCrcs folders) ++ [0x00]))

theorem streamCrcs_length {folder : CompletedFolder}
    (h : folder.fileCrcs.length = folder.fileIndices.length) :
    (streamCrcs folder).length = folder.fileIndices.length := by
  unfold streamCrcs
  split
  · next hknown =>
    unfold crcKnown at hknown
    simp only [Bool.and_eq_true, beq_iff_eq] at hknown
    rw [hknown.1]
    rfl
  · exact h

section
variable {folders : List CompletedFolder} {wired : List WiredFolder}

/-- The format leaves out one digest for each folder whose CRC is that of its only stream. -/
theorem unknownCrcs_length (hcrcs : ∀ f ∈ folders, f.fileCrcs.length = f.fileIndices.length) :
    (unknownCrcs folders).length + folders.countP crcKnown = fileTotal folders := by
  induction folders with
  | nil => rfl
  | cons folder folders ih =>
    have hrest := ih fun f hf => hcrcs f (List.mem_cons_of_mem _ hf)
    have hfirst := streamCrcs_length (hcrcs folder (List.mem_cons_self ..))
    have htotal : fileTotal (folder :: folders) = folder.fileIndices.length + fileTotal folders := rfl
    rw [unknownCrcs, List.flatMap_cons, List.length_append, htotal, ← hfirst, ← hrest, streamCrcs]
    unfold unknownCrcs
    cases hknown : crcKnown folder with
    | true =>
      rw [List.countP_cons_of_pos hknown]
      simp only [if_true, List.length_nil, List.length_singleton]
      omega
    | false =>
      rw [List.countP_cons_of_neg (by simp [hknown])]
      simp only [Bool.false_eq_true, if_false]
      omega

theorem streamCrcs_countP : (folders.flatMap streamCrcs).countP Option.isSome =
    (unknownCrcs folders).countP Option.isSome + folders.countP crcKnown := by
  induction folders with
  | nil => rfl
  | cons folder folders ih =>
    rw [unknownCrcs, List.flatMap_cons, List.flatMap_cons, List.countP_append, List.countP_append, ih,
      streamCrcs]
    unfold unknownCrcs
    cases hknown : crcKnown folder with
    | true =>
      have hsome : folder.folderCrc.isSome := by
        unfold crcKnown at hknown
        exact (Bool.and_eq_true _ _ ▸ hknown).2
      rw [List.countP_cons_of_pos hknown]
      simp only [if_true, List.countP_nil, List.countP_cons_of_pos hsome]
      omega
    | false =>
      rw [List.countP_cons_of_neg (by simp [hknown])]
      simp only [Bool.false_eq_true, if_false]
      omega

theorem unknownCrcs_eq (h : ∀ f ∈ folders, ¬crcKnown f) : unknownCrcs folders = fileCrcs folders := by
  unfold unknownCrcs fileCrcs
  refine List.flatMap_congr fun f hf => ?_
  rw [if_neg (h f hf)]

theorem formatStreams_eq (h : ∀ f ∈ folders, ¬crcKnown f) :
    formatStreams folders = writeStreamsInfo folders := by
  unfold formatStreams writeStreamsInfo
  rw [unknownCrcs_eq h, writeSubstreamsInfo_eq]
  simp only [List.append_assoc]

theorem substreamTables_left {e : List UInt8} {a n : ℕ} {v : SubstreamInfo × Slice}
    (htotal : fileTotal folders < usizeLimit)
    (hsizes : ∀ f ∈ folders, f.fileSizes.length = f.fileIndices.length)
    (hrun : loopFuel (.error .eof) (SubstreamInfo.turn folders.length) n
      (SubstreamInfo.initial folders.length) ⟨a, substreamTables folders ++ e⟩ = .ok v) :
    ∃ b m, loopFuel (.error .eof) (SubstreamInfo.turn folders.length) m
      { numUnpackStreamsPerFolder := fileCounts folders, unpackSizes := explicitSizes folders,
        digests := [] } ⟨b, e⟩ = .ok v := by
  have hsum : streamSum (fileCounts folders) = fileTotal folders := streamSum_fileCounts htotal
  have hsizeSum := sizeSum_fileCounts htotal hsizes
  have hlt : (explicitSizes folders).length < usizeLimit := by
    rw [← hsizeSum]
    exact (sizeSum_le _).trans_lt (hsum ▸ htotal)
  have hsizesPart : ∀ b n, loopFuel (.error .eof) (SubstreamInfo.turn folders.length) n
      { numUnpackStreamsPerFolder := fileCounts folders, unpackSizes := [], digests := [] }
      ⟨b, (if folders.any fun f => f.fileIndices.length > 1 then
        [0x09] ++ (explicitSizes folders).flatMap sevenzipVaruint64Encode else []) ++ e⟩ = .ok v →
      ∃ b m, loopFuel (.error .eof) (SubstreamInfo.turn folders.length) m
        { numUnpackStreamsPerFolder := fileCounts folders, unpackSizes := explicitSizes folders,
          digests := [] } ⟨b, e⟩ = .ok v := by
    intro b n hrun
    split at hrun
    · exact ⟨_, loopFuel_again hrun (sizesTurn_reads (W := Window.all) _ _ hsizeSum hlt b e trivial)⟩
    · next hnone =>
      rw [explicitSizes_none hsizes hnone]
      exact ⟨b, n, hrun⟩
  unfold substreamTables at hrun
  rw [List.append_assoc] at hrun
  split at hrun
  · have hcounts := countsTurn_reads (W := Window.all) _ (SubstreamInfo.initial folders.length)
      (List.length_map _) (hsum ▸ htotal : streamSum (fileCounts folders) < usizeLimit)
    obtain ⟨m, hrun⟩ := loopFuel_again hrun (hcounts a _ trivial)
    exact hsizesPart _ m hrun
  · next hsingle =>
    unfold SubstreamInfo.initial at hrun
    rw [← fileCounts_single hsingle] at hrun
    exact hsizesPart a n hrun

theorem loopFuel_end {σ : Type} {turn : σ → NomParser (Turn σ σ)} {acc v : σ} {a n : ℕ}
    {bytes : List UInt8} {r : Slice} (hend : Reads Window.all (turn acc) [0x00] (.done acc))
    (hrun : loopFuel (.error .eof) turn n acc ⟨a, [0x00] ++ bytes⟩ = .ok (v, r)) :
    v = acc ∧ r = ⟨a + 1, bytes⟩ := by
  cases n with
  | zero => cases hrun
  | succ n =>
    obtain ⟨t, s, hturn, hrest⟩ := bind_eq_ok.mp hrun
    obtain ⟨rfl, rfl⟩ := hend.det hturn
    cases hrest
    exact ⟨rfl, rfl⟩

/-- The digests of the format are read for all streams: as the padded digests, or past the section. -/
theorem formatSubstreams_left {a : ℕ} {tail : List UInt8} {info : SubstreamInfo} {r : Slice}
    (hb : Bounded folders) (hsizes : ∀ f ∈ folders, f.fileSizes.length = f.fileIndices.length)
    (hlt : (unknownCrcs folders).length < fileTotal folders)
    (hrun : SubstreamInfo.parse folders.length
      ⟨a, substreamSection folders (unknownCrcs folders) ++ tail⟩ = .ok (info, r))
    (htail : tail.length ≤ r.bytes.length) :
    info = { numUnpackStreamsPerFolder := fileCounts folders, unpackSizes := explicitSizes folders,
             digests := if (unknownCrcs folders).any Option.isSome then
               padded (fileTotal folders) (unknownCrcs folders) else [] } ∧ r.bytes = tail := by
  have hend (acc : SubstreamInfo) : Reads Window.all (SubstreamInfo.turn folders.length acc) [0x00]
      (.done acc) := (Property.parse_reads .END).bind_nil (.pure _)
  have hsum : streamSum (fileCounts folders) = fileTotal folders := streamSum_fileCounts hb.files_lt
  have htotal : fileTotal folders < usizeLimit := hb.files_lt
  unfold substreamSection at hrun
  rw [List.append_assoc, List.append_assoc] at hrun
  obtain ⟨u, s, htag, hloop⟩ := bind_eq_ok.mp hrun
  obtain ⟨_, rfl⟩ := (expectProperty_reads .SubStreamsInfo).det htag
  obtain ⟨b, m, hloop⟩ := substreamTables_left htotal hsizes hloop
  rw [writeOptionalCrcs_eq] at hloop
  split at hloop
  · next hany =>
    rw [if_pos hany]
    obtain ⟨turn, t, hturn, hrest⟩ := loopFuel_turn hloop
    rw [List.append_assoc, List.append_assoc] at hturn
    obtain ⟨tag, t₁, htag, hsection⟩ := bind_eq_ok.mp hturn
    obtain ⟨rfl, rfl⟩ := (Property.parse_reads .CRC).det htag
    dsimp only at hsection
    rw [checkedSubstreamTotal_eq, hsum, checkedUsize, if_pos htotal, pure_bind,
      checkSubstreamDigestLimit, if_neg (Nat.not_lt.mpr hb.files), pure_bind] at hsection
    obtain ⟨digests, t₂, hdigests, hpure⟩ := bind_eq_ok.mp hsection
    cases hpure
    obtain ⟨k, hrest⟩ := hrest _ rfl
    have hleft := loopFuel_progresses (substreamTurn_progresses folders.length) k _ _ _ _ hrest
    have hlimit : fileTotal folders * 4 < usizeLimit := by
      have := hb.files
      unfold MAX_SUBSTREAM_DIGESTS at this
      unfold usizeLimit
      omega
    obtain ⟨rfl, rfl⟩ := parseStreamDigests_short hlt hlimit hdigests (by
      rw [List.length_append, List.length_singleton]
      omega)
    obtain ⟨rfl, rfl⟩ := loopFuel_end (hend _) hrest
    exact ⟨rfl, rfl⟩
  · next hany =>
    rw [if_neg hany]
    obtain ⟨rfl, rfl⟩ := loopFuel_end (hend _) hloop
    exact ⟨rfl, rfl⟩

section
variable {backing : Slice} {externalData : List Slice} {a : ℕ} {rest : List UInt8}

/-- What can be made of a section that follows the format and leaves out some digest: the table of the
digests it has, padded, as if they belonged to the first streams. -/
def paddedStreams (folders : List CompletedFolder) : StreamInfo :=
  streamsWith folders (if (unknownCrcs folders).any Option.isSome then
    padded (fileTotal folders) (unknownCrcs folders) else [])

theorem formatStreams_padded {streams : StreamInfo} {r : Slice}
    (h : List.Forall₂ Consistent folders wired) (hb : Bounded folders)
    (hlt : (unknownCrcs folders).length < fileTotal folders)
    (hmem : (Window.within backing).mem ⟨a, formatStreams folders ++ rest⟩)
    (hrun : StreamInfo.parseWithExternal backing externalData ⟨a, formatStreams folders ++ rest⟩ =
      .ok (streams, r)) (hr : r.bytes = rest) : streams = paddedStreams folders := by
  have hsizes := Consistent.all_left h fun _ _ hc => hc.fileSizes
  have hcount := count_lt_of_bounded h hb
  have hcoders := coderSizes_length h
  unfold formatStreams at hrun hmem
  simp only [List.append_assoc] at hrun hmem
  obtain ⟨m, hrun⟩ := loopFuel_again hrun (packTurn_reads StreamInfo.empty hb.packCount a _ hmem)
  have hunpack : Reads (Window.within backing)
      (StreamInfo.turn backing externalData ⟨some (writtenPack folders), none, none⟩)
      (writeUnpackInfo folders)
      (.again ⟨some (writtenPack folders), some (writtenUnpack folders), none⟩) :=
    unpackTurn_reads _ (defines_of_consistent h) hcount hb.definitions (hcoders ▸ hb.coderCount) hcoders
  obtain ⟨k, hrun⟩ := loopFuel_again hrun (hunpack _ _ ((Window.within backing).drop hmem))
  obtain ⟨turn, t, hturn, hnext⟩ := loopFuel_turn hrun
  obtain ⟨tag, t₁, htag, hsection⟩ := bind_eq_ok.mp hturn
  obtain ⟨rfl, rfl⟩ := peekTag_ok .SubStreamsInfo htag
  obtain ⟨info, t₂, hinfo, hpure⟩ := bind_eq_ok.mp hsection
  cases hpure
  obtain ⟨j, hnext⟩ := hnext _ rfl
  have hleft := loopFuel_progresses (streamTurn_progresses backing externalData) j _ _ _ _ hnext
  rw [hr] at hleft
  dsimp only [Option.map_some, Option.getD_some] at hinfo
  rw [numFolders_written] at hinfo
  obtain ⟨rfl, hbytes⟩ := formatSubstreams_left hb hsizes hlt hinfo (by
    rw [List.length_append, List.length_singleton]
    omega)
  have hend (acc : StreamInfo) : Reads Window.all (StreamInfo.turn backing externalData acc) [0x00]
      (.done acc) := peekTag_reads .END rfl ((Property.parse_reads .END).bind_nil (.pure _))
  obtain ⟨ta, tb⟩ := t
  dsimp only at hbytes
  subst hbytes
  exact (loopFuel_end (hend _) hnext).1

end

/-! The digests the folders end up with -/

def layoutCrcs (layout : FolderLayout) : List (Option UInt32) :=
  layout.substreams.toList.map Substream.digest

theorem layoutCrcs_countP {table : List (Option UInt32)} {left : List CompletedFolder}
    (htable : table = [] ∨ table.length = fileTotal folders) (h : List.Forall₂ Consistent left wired) :
    ∀ before, folders = before ++ left →
      ((writtenLayouts table before left wired).flatMap layoutCrcs).countP Option.isSome =
        (table.drop (fileTotal before)).countP Option.isSome := by
  induction h with
  | nil =>
    intro before hfolders
    rw [List.append_nil] at hfolders
    subst hfolders
    have hnone : table.drop (fileTotal folders) = [] := by
      rcases htable with rfl | hlen
      · exact List.drop_nil
      · exact List.drop_eq_nil_of_le hlen.le
    rw [hnone]
    rfl
  | @cons folder w left wired hfolder _ ih =>
    intro before hfolders
    have hrest := ih (before ++ [folder]) (by rw [hfolders, List.append_assoc]; rfl)
    have hafter : fileTotal (before ++ [folder]) = fileTotal before + folder.fileIndices.length := by
      rw [fileTotal_append]
      rfl
    have hfirst : (layoutCrcs (writtenLayout table before folder w (finalOutputSize folder w))).countP
        Option.isSome = (tablePart table before folder).countP Option.isSome := by
      have hlist : layoutCrcs (writtenLayout table before folder w (finalOutputSize folder w)) =
          (substreamsFrom (tablePart table before folder) 0 0 folder.fileSizes).map Substream.digest :=
        congrArg _ (layoutOf_toList _ _)
      rw [hlist]
      rcases tablePart_length hfolders htable with hpart | hpart
      · rw [hpart, substreamsFrom_no_digest, List.countP_replicate]
        rfl
      · rw [substreamsFrom_digest _ _ _ _ (by rw [hpart, hfolder.fileSizes, Nat.zero_add]), List.drop_zero]
    rw [writtenLayouts, List.flatMap_cons, List.countP_append, hrest, hfirst, hafter, ← List.drop_drop,
      ← List.countP_append]
    exact congrArg _ (List.take_append_drop _ _)

def DigestsPlaced (folders : List CompletedFolder) (streams : StreamInfo) : Prop :=
  ∃ start layouts, FolderLayouts.forStreams streams = .ok start ∧ start.toList = .ok layouts ∧
    List.Forall₂ (fun folder layout => layoutCrcs layout = streamCrcs folder) folders layouts

theorem digests_misplaced (h : List.Forall₂ Consistent folders wired) (hb : Bounded folders)
    (hlt : (unknownCrcs folders).length < fileTotal folders) :
    ¬DigestsPlaced folders (paddedStreams folders) := by
  rintro ⟨start, layouts, hstart, hlist, hplaced⟩
  have hcrcs := Consistent.all_left h fun _ _ hc => hc.fileCrcs
  have hcount := count_lt_of_bounded h hb
  set table := if (unknownCrcs folders).any Option.isSome then
    padded (fileTotal folders) (unknownCrcs folders) else [] with htableEq
  have htable : table = [] ∨ table.length = fileTotal folders := by
    rw [htableEq]
    split
    · exact .inr (padded_length hlt.le)
    · exact .inl rfl
  have hsome : table.countP Option.isSome = (unknownCrcs folders).countP Option.isSome := by
    rw [htableEq]
    split
    · rw [padded, List.countP_append, List.countP_replicate]
      rfl
    · next hany =>
      refine (List.countP_eq_zero.mpr ?_).symm
      exact List.any_eq_false.mp (Bool.not_eq_true _ ▸ hany)
  obtain ⟨start', hstart', hlist'⟩ := layouts_written h hb hcount htable
  rw [paddedStreams, ← htableEq, hstart'] at hstart
  cases hstart
  rw [hlist'] at hlist
  cases hlist
  have hall : (writtenLayouts table [] folders wired).flatMap layoutCrcs = folders.flatMap streamCrcs := by
    generalize writtenLayouts table [] folders wired = layouts at hplaced
    clear * - hplaced
    induction hplaced with
    | nil => rfl
    | cons hfirst _ ih => rw [List.flatMap_cons, List.flatMap_cons, hfirst, ih]
  have hcountP := layoutCrcs_countP htable h [] rfl
  rw [hall, streamCrcs_countP, show fileTotal ([] : List CompletedFolder) = 0 from rfl, List.drop_zero,
    hsome] at hcountP
  have hlength := unknownCrcs_length hcrcs
  omega

/-! The scanner -/

theorem folderBlocks_scanned {W : Window} {data : Slice} {coders : List Folder}
    (h : Defines folders coders) : ∀ total, total + totalOutStreams coders < usizeLimit →
      Reads W (iterate (scanFolderBlock data) folders.length ⟨none, total⟩)
        (folders.flatMap CompletedFolder.coderInfo) ⟨none, total + totalOutStreams coders⟩ := by
  induction h with
  | nil => exact fun total _ => .pure _
  | @cons folder c folders coders hfolder _ ih =>
    intro total htotal
    have hsum : total + totalOutStreams (c :: coders) =
        total + c.totalOutStreams + totalOutStreams coders := by
      simp only [totalOutStreams, List.map_cons, List.sum_cons, Nat.add_assoc]
    rw [hsum] at htotal ⊢
    have hlt : total + c.totalOutStreams < usizeLimit := by omega
    have hblock : Reads W (scanFolderBlock data ⟨none, total⟩) folder.coderInfo
        ⟨none, total + c.totalOutStreams⟩ := by
      refine Reads.bind (e := []) (Reads.pure none) ?_
      refine (Reads.mapError (scanFolder_reads hfolder)).bind_nil ?_
      rw [if_pos hlt]
      exact .pure _
    exact hblock.bind (ih _ htotal)

theorem scanDefinitions_reads {W : Window} {externalData : List Slice} {coders : List Folder}
    (h : Defines folders coders) (hcount : folders.length < 2 ^ 64)
    (hout : totalOutStreams coders < usizeLimit) :
    Reads W (scanDefinitions externalData)
      ([0x07] ++ ([0x0B] ++ (varuint folders.length ++ [0x00])) ++
        folders.flatMap CompletedFolder.coderInfo) (folders.length, totalOutStreams coders) := by
  refine (parseFolderDeclaration_reads _).bind ?_
  intro a rest hmem
  set data : List UInt8 := folders.flatMap CompletedFolder.coderInfo with hdata
  have hnum : (UInt64.ofNat folders.length).toNat = folders.length := UInt64.toNat_ofNat_of_lt' hcount
  have hwalk : walkFolderBlocks ⟨a, data ++ rest⟩ folders.length none ⟨a, data ++ rest⟩ =
      .ok (⟨none, totalOutStreams coders⟩, ⟨a + data.length, rest⟩) := by
    have hblocks := @folderBlocks_scanned folders W ⟨a, data ++ rest⟩ coders h 0 (by rwa [Nat.zero_add])
    have hiterate := hblocks a rest hmem
    rw [Nat.zero_add] at hiterate
    unfold walkFolderBlocks
    rw [bind_of_ok hiterate]
    rfl
  have hscan : scanFolderBlocks ⟨a, data ++ rest⟩ folders.length none =
      .ok (⟨none, totalOutStreams coders⟩, data.length) := by
    unfold scanFolderBlocks
    rw [hwalk]
    simp [Except.bind, bind, pure, Except.pure]
  have hresolve : FolderSource.resolve .inline externalData ⟨a, data ++ rest⟩ =
      .ok (.inline ⟨a, data ++ rest⟩, ⟨a, data ++ rest⟩) := rfl
  unfold scanDeclared
  dsimp only
  rw [bind_of_ok hresolve]
  simp only [FolderSource.bytes, hnum, hscan, Except.mapError, Parser.ofExcept, pure_bind]
  unfold FolderSource.remainingHeader
  simp only [bind_assoc]
  rw [bind_of_ok (take_append _ a data rest)]
  rfl

theorem writeStreamsInfo_scanned {externalData : List Slice} (h : List.Forall₂ Consistent folders wired)
    (hb : Bounded folders) : Reads (Window.shorter usizeLimit)
      (scanStreamInfoWithExternal externalData) (writeStreamsInfo folders) () := by
  have hsizes := Consistent.all_left h fun _ _ hc => hc.fileSizes
  have hcrcs := Consistent.all_left h fun _ _ hc => hc.fileCrcs
  have hcount := count_lt_of_bounded h hb
  have hcoders := coderSizes_length h
  have hW (s : Slice) (hs : (Window.shorter usizeLimit).mem s) : s.bytes.length < usizeLimit := hs
  have hpack : Reads (Window.shorter usizeLimit) scanPackInfo (writePackInfo folders) () :=
    (packInfo_agrees hW).reads_unit (writePackInfo_reads hb.packCount)
  have hunpack : Reads (Window.shorter usizeLimit) (scanUnpackInfoWithExternal externalData)
      (writeUnpackInfo folders) folders.length := by
    rw [writeUnpackInfo_eq]
    refine (scanDefinitions_reads (defines_of_consistent h) hcount (hcoders ▸ hb.coderCount)).bind ?_
    have hloop : Reads (Window.shorter usizeLimit) (loop (.error .eof)
        (scanUnpackTurn (coderSizes folders).length (folderCrcs folders).length) ())
        (([0x0C] ++ (coderSizes folders).flatMap sevenzipVaruint64Encode) ++
          (writeOptionalCrcs (folderCrcs folders) ++ [0x00])) () :=
      (Agrees.loop (fun _ acc _ => unpackTurn_agrees hW _ _ acc) trivial).reads_unit (unpackLoop_reads _)
    have hlen : (folderCrcs folders).length = folders.length := List.length_map _
    rw [hcoders, hlen] at hloop
    exact hloop.bind_nil (.pure _)
  have hsubstreams : Reads (Window.shorter usizeLimit) (scanSubstreamInfo folders.length)
      (writeSubstreamsInfo folders) () :=
    (substreamInfo_agrees hcount).reads_unit (writeSubstreamsInfo_reads hsizes hcrcs hb.files)
  have heq : writeStreamsInfo folders = writePackInfo folders ++ (writeUnpackInfo folders ++
      (writeSubstreamsInfo folders ++ [0x00])) := by
    unfold writeStreamsInfo
    simp only [List.append_assoc]
  rw [heq]
  refine Reads.loop_again (List.cons_ne_nil _ _)
    (peekTag_reads .PackInfo (writePackInfo_eq folders) (hpack.bind_nil (.pure _))) ?_
  refine Reads.loop_again (List.cons_ne_nil _ _)
    (peekTag_reads .UnPackInfo (writeUnpackInfo_eq folders) (hunpack.bind_nil (.pure _))) ?_
  refine Reads.loop_again (List.cons_ne_nil _ _)
    (peekTag_reads .SubStreamsInfo (writeSubstreamsInfo_eq folders) (hsubstreams.bind_nil (.pure _))) ?_
  exact Reads.loop_done (List.cons_ne_nil _ _)
    (peekTag_reads .END rfl ((Property.parse_reads .END).bind_nil (.pure _)))

/-! All three against the format -/

def withStreamCrcs (folder : CompletedFolder) : CompletedFolder :=
  { folder with fileCrcs := streamCrcs folder }

/-- The parser, the scanner and the writer keep to the format for these folders. -/
structure FollowsFormat (folders : List CompletedFolder) (backing : Slice) (externalData : List Slice)
    (a : ℕ) (rest : List UInt8) : Prop where
  parser : ∃ streams, StreamInfo.parseWithExternal backing externalData
      ⟨a, formatStreams folders ++ rest⟩ = .ok (streams, ⟨a + (formatStreams folders).length, rest⟩) ∧
    DigestsPlaced folders streams
  scanner : scanStreamInfoWithExternal externalData ⟨a, formatStreams folders ++ rest⟩ =
    .ok ((), ⟨a + (formatStreams folders).length, rest⟩)
  writer : writeStreamsInfo (folders.map withStreamCrcs) = formatStreams folders

theorem digestsPlaced_written (h : List.Forall₂ Consistent folders wired) (hb : Bounded folders)
    (hnone : ∀ f ∈ folders, ¬crcKnown f) : DigestsPlaced folders (writtenStreams folders) := by
  obtain ⟨start, layouts, hstart, hlist, hfiles⟩ := (writtenStreams_givesBack h hb).laidOut
  refine ⟨start, layouts, hstart, hlist, ?_⟩
  clear hlist hstart h hb
  induction hfiles with
  | nil => exact .nil
  | @cons folder layout folders layouts hfile _ ih =>
    have hcrcs : layoutCrcs layout = streamCrcs folder := by
      rw [streamCrcs, if_neg (hnone folder (List.mem_cons_self ..))]
      exact hfile.crcs
    exact .cons hcrcs (ih fun f hf => hnone f (List.mem_cons_of_mem _ hf))

/-- They do exactly when no folder has a CRC that is also the one of its only stream. The section is one with
substreams, which `formatStreams` always writes, and its totals are those the reader holds: packed sizes that
sum up in 64 bits, definitions below 2^32 bytes, and at most `MAX_SUBSTREAM_DIGESTS` streams. -/
theorem follows_format_iff {backing : Slice} {externalData : List Slice} {a : ℕ} {rest : List UInt8}
    (h : List.Forall₂ Consistent folders wired) (hb : Bounded folders)
    (hmem : (Window.within backing).mem ⟨a, formatStreams folders ++ rest⟩)
    (hlen : (formatStreams folders ++ rest).length < 2 ^ 64) :
    FollowsFormat folders backing externalData a rest ↔ ∀ f ∈ folders, ¬crcKnown f := by
  constructor
  · rintro ⟨⟨streams, hparse, hplaced⟩, _, _⟩ f hf hknown
    have hcrcs := Consistent.all_left h fun _ _ hc => hc.fileCrcs
    have hpos : 0 < folders.countP crcKnown := List.countP_pos_iff.mpr ⟨f, hf, hknown⟩
    have hlt : (unknownCrcs folders).length < fileTotal folders := by
      have := unknownCrcs_length hcrcs
      omega
    rw [formatStreams_padded h hb hlt hmem hparse rfl] at hplaced
    exact digests_misplaced h hb hlt hplaced
  · intro hnone
    have heq := formatStreams_eq hnone
    have hsame : folders.map withStreamCrcs = folders := by
      refine List.map_congr_left (g := id) (fun f hf => ?_) |>.trans (List.map_id _)
      rw [withStreamCrcs, streamCrcs, if_neg (hnone f hf)]
      rfl
    rw [heq] at hmem hlen
    refine ⟨⟨writtenStreams folders, ?_, digestsPlaced_written h hb hnone⟩, ?_, ?_⟩
    · rw [heq]
      exact writeStreamsInfo_reads h hb a rest hmem
    · rw [heq]
      exact writeStreamsInfo_scanned h hb a rest hlen
    · rw [hsame, heq]

end

theorem follows_format_iff_copied :
    FollowsFormat [twoFiles, emptyCopy 0] ⟨0, formatStreams [twoFiles, emptyCopy 0] ++ []⟩ [] 0 [] := by
  have hconsistent : List.Forall₂ Consistent [twoFiles, emptyCopy 0] [copyWired, copyWired] :=
    .cons ⟨copyCoder_parse, rfl, rfl, rfl, rfl, 7, rfl, rfl⟩ (.cons (emptyCopy_consistent 0) .nil)
  have hbounded : Bounded [twoFiles, emptyCopy 0] :=
    ⟨by decide, by decide, by decide, by decide, by decide⟩
  exact (follows_format_iff hconsistent hbounded (Window.within_self _) (by decide +kernel)).mpr (by decide)

/-- A folder with a CRC and one file, and one without a CRC and one file. -/
def mixedFolders : List CompletedFolder :=
  [{ fileIndices := [0], packSizes := [3], coderInfo := [1, 1, 0], coderUnpackSizes := [3],
     folderCrc := some 7, fileSizes := [3], fileCrcs := [some 7] },
   { fileIndices := [1], packSizes := [3], coderInfo := [1, 1, 0], coderUnpackSizes := [3],
     folderCrc := none, fileSizes := [3], fileCrcs := [some 9] }]

/-- The format writes one digest here, and the parser reads two. -/
theorem mixedFolders_not_followed :
    (List.Forall₂ Consistent mixedFolders [copyWired, copyWired] ∧ Bounded mixedFolders) ∧
      ¬FollowsFormat mixedFolders ⟨0, formatStreams mixedFolders⟩ [] 0 [] := by
  refine ⟨⟨?_, by decide, by decide, by decide, by decide, by decide⟩, fun h => ?_⟩
  · exact .cons ⟨copyCoder_parse, rfl, rfl, rfl, rfl, 3, rfl, rfl⟩
      (.cons ⟨copyCoder_parse, rfl, rfl, rfl, rfl, 3, rfl, rfl⟩ .nil)
  · obtain ⟨streams, hparse, _⟩ := h.parser
    have hfails : (StreamInfo.parseWithExternal ⟨0, formatStreams mixedFolders⟩ []
        ⟨0, formatStreams mixedFolders ++ []⟩).isOk = false := by decide +kernel
    rw [hparse] at hfails
    cases hfails

end R7z
