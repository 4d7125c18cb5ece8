import R7z.Wire.Relocate
import R7z.Write.Header
import R7z.ScanAgreement
import R7z.FolderLayout

/-! The stream section is read back as it was written: the packed streams, the folders, and the
substreams each folder's output is cut into. -/

namespace R7z

open Wire Wire.Parser Write

/-! Folder definitions, wherever they lie -/

theorem varuintTurns_portable (first : UInt8) (k : ℕ) : ∀ (i : ℕ) (mask : UInt8) (value : UInt64),
    Portable (varuintTurns first k i mask value) := by
  induction k with
  | zero => exact fun _ _ value => .pure value
  | succ k ih =>
    intro i mask value
    exact .ite (.pure _) ((Portable.byte _).bind fun next => ih _ _ _)

theorem sevenzipVaruint64Decode_portable : Portable sevenzipVaruint64Decode :=
  (Portable.byte _).bind fun first => varuintTurns_portable first 8 0 0x80 0

theorem checkedCoderCount_portable (n : UInt64) : Portable (checkedCoderCount n) :=
  .ite (.pure _) (.fail _)

theorem FolderStreamCounts.addCoder_portable (counts : FolderStreamCounts) (i o : UInt64) :
    Portable (counts.addCoder i o) := .ite (.fail _) (.ite (.fail _) (.pure _))

theorem FolderStreamCounts.layout_portable (counts : FolderStreamCounts) : Portable counts.layout :=
  .ite (.fail _) (.ite (.fail _) (.pure _))

theorem streamIndex_portable (total : ℕ) : Portable (streamIndex total) :=
  sevenzipVaruint64Decode_portable.bind fun idx =>
    Portable.bind (p := checkedStreamIndex idx total) (.ite (.pure ()) (.fail _)) fun _ => .pure idx

theorem bindPair_portable (counts : FolderStreamCounts) : Portable (bindPair counts) :=
  (streamIndex_portable _).bind fun _ => (streamIndex_portable _).bind fun _ => .pure _

theorem CoderInfoRef.streams_portable (isComplex : Bool) :
    Portable (CoderInfoRef.streams isComplex) :=
  .ite (sevenzipVaruint64Decode_portable.bind fun _ =>
    sevenzipVaruint64Decode_portable.bind fun _ => .pure _) (.pure _)

theorem CoderInfo.parse_portable : Portable CoderInfo.parse := by
  have hmk (codecId : Slice) (streams : UInt64 × UInt64) (properties : Option Slice) :
      Portable (if h : codecId.bytes.length ≤ 15 then
          pure { codecId := ⟨codecId.bytes, h⟩, numInStreams := streams.1,
                 numOutStreams := streams.2, properties := properties.map Slice.bytes }
        else fail (.error .tooLarge) : NomParser CoderInfo) := by
    split
    · exact .pure _
    · exact .fail _
  unfold CoderInfo.parse CoderInfoRef.parse
  simp only [bind_assoc, pure_bind]
  refine (Portable.byte _).bind fun flags => Portable.take_bind (fun a b bs => rfl) fun codecId => ?_
  refine (CoderInfoRef.streams_portable _).bind fun streams => ?_
  unfold CoderInfoRef.attributes
  split
  · simp only [bind_assoc, pure_bind]
    refine sevenzipVaruint64Decode_portable.bind fun propSize => ?_
    exact Portable.take_bind (fun a b bs => rfl) fun properties => hmk codecId streams (some properties)
  · exact hmk codecId streams none

theorem Folder.parseCoder_portable (acc : FolderStreamCounts × List CoderInfo) :
    Portable (Folder.parseCoder acc) :=
  CoderInfo.parse_portable.bind fun _ =>
    (FolderStreamCounts.addCoder_portable _ _ _).bind fun _ => .pure _

theorem Folder.parse_portable : Portable Folder.parse := by
  refine sevenzipVaruint64Decode_portable.bind fun _ => (checkedCoderCount_portable _).bind fun n => ?_
  refine (Portable.iterate Folder.parseCoder_portable n _).bind fun acc => ?_
  refine (FolderStreamCounts.layout_portable _).bind fun layout => ?_
  refine ((bindPair_portable acc.1).count layout.1).bind fun bindPairs => ?_
  exact .ite (((streamIndex_portable _).count _).bind fun _ => .pure _) (.pure _)

theorem scanFolder_reads {W : Window} {e : List UInt8} {folder : Folder}
    (h : Reads Window.all Folder.parse e folder) : Reads W scanFolder e folder.totalOutStreams := by
  intro a rest _
  have hparse := h a rest trivial
  have hagree := scanFolder_agrees (W := Window.all)
  obtain ⟨n, hn⟩ := (hagree.ok_iff trivial _).mpr ⟨folder, hparse⟩
  obtain ⟨folder', hparse', hcount⟩ := hagree.ok trivial hn
  rw [hparse] at hparse'
  cases hparse'
  rw [hn, hcount]

/-! Digest tables -/

/-- The table after its tag: a flag, the bits that say which digests are there, and those digests. -/
def digestBytes (crcs : List (Option UInt32)) : List UInt8 :=
  (if crcs.all Option.isSome then [1] else [0] ++ boolsToBytes (crcs.map Option.isSome)) ++
    (crcs.filterMap id).flatMap fun crc => toLeBytes 4 crc.toNat

theorem writeOptionalCrcs_eq (crcs : List (Option UInt32)) :
    writeOptionalCrcs crcs = if crcs.any Option.isSome then [0x0A] ++ digestBytes crcs else [] := by
  unfold writeOptionalCrcs digestBytes
  by_cases hany : crcs.any Option.isSome
  · rw [if_neg (not_not_intro hany), if_pos hany]
    by_cases hall : crcs.all Option.isSome
    · simp only [if_pos hall]
      rfl
    · simp only [if_neg hall]
      simp
  · rw [if_pos hany, if_neg hany]

section
variable {W : Window}

theorem isSome_getD (crcs : List (Option UInt32)) (i : ℕ) :
    (crcs.map Option.isSome).getD i false = (crcs.getD i none).isSome := by
  rw [List.getD_eq_getElem?_getD, List.getD_eq_getElem?_getD, List.getElem?_map]
  cases crcs[i]? <;> rfl

theorem definedCrcs_read {crcs : List (Option UInt32)} :
    Reads W (optionals (bitmapIsSet (boolsToBytes (crcs.map Option.isSome))) leU32 crcs.length)
      ((crcs.filterMap id).flatMap fun crc => toLeBytes 4 crc.toNat) crcs := by
  refine Reads.optionals (fun i _ => ?_) fun v _ => leU32_reads v
  exact (bitAt_packBits _ i).trans (isSome_getD crcs i)

theorem allCrcs_read {crcs : List (Option UInt32)} (hall : crcs.all Option.isSome) :
    Reads W (optionals (fun _ => true) leU32 crcs.length)
      ((crcs.filterMap id).flatMap fun crc => toLeBytes 4 crc.toNat) crcs := by
  refine Reads.optionals (fun i hi => ?_) fun v _ => leU32_reads v
  rw [List.getD_eq_getElem _ _ hi]
  exact (List.all_eq_true.mp hall _ (List.getElem_mem hi)).symm

theorem parseDigests_reads (crcs : List (Option UInt32)) :
    Reads W (parseDigests crcs.length) (digestBytes crcs) crcs := by
  have hbits : (boolsToBytes (crcs.map Option.isSome)).length = (crcs.length + 7) / 8 := by
    rw [boolsToBytes, packBits_length, List.length_map]
  unfold digestBytes
  by_cases hall : crcs.all Option.isSome
  · rw [if_pos hall]
    exact (leU8_reads 1).bind (allCrcs_read hall)
  · rw [if_neg hall, List.append_assoc]
    refine (leU8_reads 0).bind ?_
    rw [if_pos rfl, ← hbits]
    intro a rest hmem
    rw [List.append_assoc] at hmem ⊢
    unfold takeBytes
    rw [bind_of_ok (take_append _ a _ _)]
    have hread := @definedCrcs_read W crcs _ rest (W.drop hmem)
    rw [List.length_append, ← Nat.add_assoc]
    exact hread

theorem checkRemaining_reads {α : Type} {q : NomParser α} {n : ℕ} {e : List UInt8} {v : α}
    (hn : n ≤ e.length) (hread : Reads W q e v) : Reads W (do checkRemaining n; q) e v := by
  intro a rest hmem
  have hcheck : checkRemaining n ⟨a, e ++ rest⟩ = .ok ((), ⟨a, e ++ rest⟩) := by
    change (if n > (e ++ rest).length then fail _ else pure ()) _ = _
    rw [if_neg]
    · rfl
    · rw [List.length_append]
      omega
  rw [bind_of_ok hcheck]
  exact hread a rest hmem

theorem checkedWidth_reads {α : Type} {q : NomParser α} {n : ℕ} {e : List UInt8} {v : α}
    (hn : n < usizeLimit) (hq : FixedWidth q n) (hread : ∀ W, Reads W q e v) :
    Reads W (do let k ← checkedUsize n; checkRemaining k; q) e v := by
  have hlen : e.length = n := hq.length_eq (hread Window.all)
  rw [checkedUsize, if_pos hn, pure_bind]
  exact checkRemaining_reads hlen.ge (hread W)

theorem parseStreamDigests_reads {crcs : List (Option UInt32)} (hn : crcs.length * 4 < usizeLimit) :
    Reads W (parseStreamDigests crcs.length) (digestBytes crcs) crcs := by
  have hbits : (boolsToBytes (crcs.map Option.isSome)).length = (crcs.length + 7) / 8 := by
    rw [boolsToBytes, packBits_length, List.length_map]
  unfold digestBytes
  by_cases hall : crcs.all Option.isSome
  · rw [if_pos hall]
    refine (leU8_reads 1).bind ?_
    exact checkedWidth_reads hn (optionals_all_width _) fun W => allCrcs_read hall
  · rw [if_neg hall, List.append_assoc]
    refine (leU8_reads 0).bind ?_
    rw [if_pos rfl, ← hbits]
    intro a rest hmem
    rw [List.append_assoc] at hmem ⊢
    unfold takeBytes
    rw [bind_of_ok (take_append _ a _ _)]
    have hdefined : (List.range crcs.length).countP
        (bitmapIsSet (boolsToBytes (crcs.map Option.isSome))) * 4 < usizeLimit := by
      refine lt_of_le_of_lt (Nat.mul_le_mul_right 4 ?_) hn
      exact List.countP_le_length.trans_eq List.length_range
    have hread := checkedWidth_reads (W := W) hdefined
      (optionals_width (bitmapIsSet (boolsToBytes (crcs.map Option.isSome))) crcs.length)
      (fun W => definedCrcs_read) _ rest (W.drop hmem)
    rw [List.length_append, ← Nat.add_assoc]
    exact hread

end

/-! Packed streams -/

theorem varuint_reads {W : Window} {n : ℕ} (hn : n < 2 ^ 64) :
    ∃ v : UInt64, v.toNat = n ∧ Reads W sevenzipVaruint64Decode (varuint n) v :=
  ⟨UInt64.ofNat n, UInt64.toNat_ofNat_of_lt' hn, sevenzipVaruint64Decode_reads _⟩

theorem varuints_read {W : Window} (values : List UInt64) :
    Reads W (count sevenzipVaruint64Decode values.length) (values.flatMap sevenzipVaruint64Encode)
      values := Reads.count fun v _ => sevenzipVaruint64Decode_reads v

theorem length_le_flatMap_encode (values : List UInt64) :
    values.length ≤ (values.flatMap sevenzipVaruint64Encode).length := by
  induction values with
  | nil => exact le_rfl
  | cons v values ih =>
    have hpos := (sevenzipVaruint64Encode_length v).1
    rw [List.flatMap_cons, List.length_append, List.length_cons]
    omega

def packedSizes (folders : List CompletedFolder) : List UInt64 := folders.flatMap CompletedFolder.packSizes

def writtenPack (folders : List CompletedFolder) : PackInfo :=
  { packPos := 0
    numPackStreams := UInt64.ofNat (packedSizes folders).length
    packSize := packedSizes folders
    digests := List.replicate (packedSizes folders).length none }

theorem writePackInfo_eq (folders : List CompletedFolder) : writePackInfo folders =
    [0x06] ++ (varuint 0 ++ (varuint (packedSizes folders).length ++ ([0x09] ++
      ((packedSizes folders).flatMap sevenzipVaruint64Encode ++ [0x00])))) := by
  unfold writePackInfo packedSizes
  rw [List.flatMap_assoc, List.length_flatMap]
  simp only [List.append_assoc]

theorem writePackInfo_reads {W : Window} {folders : List CompletedFolder}
    (hn : (packedSizes folders).length < 2 ^ 64) :
    Reads W PackInfo.parse (writePackInfo folders) (writtenPack folders) := by
  have hcount : (UInt64.ofNat (packedSizes folders).length).toNat = (packedSizes folders).length :=
    UInt64.toNat_ofNat_of_lt' hn
  rw [writePackInfo_eq]
  refine (expectProperty_reads .PackInfo).bind ?_
  refine (sevenzipVaruint64Decode_reads 0).bind ?_
  refine (sevenzipVaruint64Decode_reads _).bind ?_
  refine (expectProperty_reads .Size).bind ?_
  rw [hcount]
  refine (varuints_read _).bind ?_
  have hend : Reads W (PackInfo.turn (packedSizes folders).length []) [0x00] (.done []) :=
    (Property.parse_reads .END).bind_nil (.pure _)
  exact (Reads.loop_done (List.cons_ne_nil _ _) hend).bind_nil (.pure _)

/-! Folders -/

def definitionOffsets (start : ℕ) : List CompletedFolder → List UInt32
  | [] => [UInt32.ofNat start]
  | folder :: folders =>
    UInt32.ofNat start :: definitionOffsets (start + folder.coderInfo.length) folders

theorem definitionOffsets_length (folders : List CompletedFolder) : ∀ start,
    (definitionOffsets start folders).length = folders.length + 1 := by
  induction folders with
  | nil => exact fun _ => rfl
  | cons folder folders ih => exact fun start => congrArg (· + 1) (ih _)

theorem definitionOffsets_append (before after : List CompletedFolder) : ∀ start,
    (definitionOffsets start (before ++ after))[before.length]? =
      some (UInt32.ofNat (start + (before.flatMap CompletedFolder.coderInfo).length)) := by
  induction before with
  | nil =>
    intro start
    cases after <;> rfl
  | cons folder before ih =>
    intro start
    have h := ih (start + folder.coderInfo.length)
    rw [List.flatMap_cons, List.length_append, ← Nat.add_assoc]
    exact h

def Defines (folders : List CompletedFolder) (coders : List Folder) : Prop :=
  List.Forall₂ (fun folder c => Reads Window.all Folder.parse folder.coderInfo c) folders coders

def totalOutStreams (coders : List Folder) : ℕ := (coders.map Folder.totalOutStreams).sum

theorem recordOffset_some {data s : Slice} {start : ℕ} (offsets : List UInt32)
    (hstart : data.bytes.length = start + s.bytes.length) (hlt : start < 2 ^ 32) :
    recordOffset data (some offsets) s = .ok (some (offsets ++ [UInt32.ofNat start]), s) := by
  have hsub : data.bytes.length - s.bytes.length = start := by omega
  change (input >>= fun folders => _) s = _
  rw [bind_of_ok (input_apply s), hsub, u32TryFrom, if_pos hlt]
  rfl

theorem folderBlocks_written {data : Slice} {rest : List UInt8} {folders : List CompletedFolder}
    {coders : List Folder} (h : Defines folders coders) :
    ∀ (a start total : ℕ) (offsets : List UInt32),
      data.bytes.length = start + (folders.flatMap CompletedFolder.coderInfo ++ rest).length →
      start + (folders.flatMap CompletedFolder.coderInfo).length < 2 ^ 32 →
      total + totalOutStreams coders < usizeLimit →
      (do let blocks ← iterate (scanFolderBlock data) folders.length ⟨some offsets, total⟩
          let offsets ← recordOffset data blocks.offsets
          pure { blocks with offsets }) ⟨a, folders.flatMap CompletedFolder.coderInfo ++ rest⟩ =
        .ok (⟨some (offsets ++ definitionOffsets start folders), total + totalOutStreams coders⟩,
          ⟨a + (folders.flatMap CompletedFolder.coderInfo).length, rest⟩) := by
  induction h with
  | nil =>
    intro a start total offsets hdata hlt _
    have hrecord := recordOffset_some (s := ⟨a, rest⟩) offsets hdata hlt
    change (recordOffset data (some offsets) >>= fun offsets => _) ⟨a, rest⟩ = _
    rw [bind_of_ok hrecord]
    rfl
  | @cons folder c folders coders hfolder hrest ih =>
    intro a start total offsets hdata hlt htotal
    have htotal' : total + c.totalOutStreams + totalOutStreams coders < usizeLimit := by
      simpa [totalOutStreams, Nat.add_assoc] using htotal
    rw [List.flatMap_cons, List.append_assoc] at hdata
    rw [List.flatMap_cons, List.length_append] at hlt
    have hblock : scanFolderBlock data ⟨some offsets, total⟩
        ⟨a, folder.coderInfo ++ (folders.flatMap CompletedFolder.coderInfo ++ rest)⟩ =
          .ok (⟨some (offsets ++ [UInt32.ofNat start]), total + c.totalOutStreams⟩,
            ⟨a + folder.coderInfo.length, folders.flatMap CompletedFolder.coderInfo ++ rest⟩) := by
      have hscan := (scanFolder_reads (W := Window.all) hfolder) a
        (folders.flatMap CompletedFolder.coderInfo ++ rest) trivial
      have hsum : total + c.totalOutStreams < usizeLimit := by omega
      unfold scanFolderBlock
      rw [bind_of_ok (recordOffset_some offsets hdata (by omega)),
        bind_of_ok (mapError_eq_ok.mpr hscan), if_pos hsum]
      rfl
    rw [List.length_append, ← Nat.add_assoc] at hdata
    have hnext := ih (a + folder.coderInfo.length) (start + folder.coderInfo.length)
      (total + c.totalOutStreams) (offsets ++ [UInt32.ofNat start]) hdata (by omega) htotal'
    rw [List.flatMap_cons, List.append_assoc, List.length_cons]
    change ((scanFolderBlock data _ >>= fun acc => iterate _ folders.length acc) >>= _) _ = _
    rw [bind_assoc, bind_of_ok hblock, hnext, List.append_assoc, List.length_append, Nat.add_assoc]
    simp only [totalOutStreams, List.map_cons, List.sum_cons, Nat.add_assoc]
    rfl

theorem parseFolderDeclaration_reads {W : Window} (n : ℕ) :
    Reads W parseFolderDeclaration ([0x07] ++ ([0x0B] ++ (varuint n ++ [0x00])))
      (UInt64.ofNat n, .inline) := by
  refine (expectProperty_reads .UnPackInfo).bind ?_
  refine (expectProperty_reads .Folder).bind ?_
  refine (sevenzipVaruint64Decode_reads _).bind ?_
  exact (leU8_reads 0).bind_nil (.pure _)

def writtenDefinitions (folders : List CompletedFolder) (coders : List Folder) : FolderDefinitions :=
  { numFolders := UInt64.ofNat folders.length
    folderData := folders.flatMap CompletedFolder.coderInfo
    folderOffsets := definitionOffsets 0 folders
    totalOutStreams := totalOutStreams coders }

section
variable {backing : Slice} {externalData : List Slice} {folders : List CompletedFolder}
  {coders : List Folder}

theorem definitions_read (h : Defines folders coders) (hcount : folders.length < 2 ^ 64)
    (hlt : (folders.flatMap CompletedFolder.coderInfo).length < 2 ^ 32)
    (hout : totalOutStreams coders < usizeLimit) :
    Reads (Window.within backing) (UnpackInfo.definitions backing externalData)
      ([0x07] ++ ([0x0B] ++ (varuint folders.length ++ [0x00])) ++
        folders.flatMap CompletedFolder.coderInfo) (writtenDefinitions folders coders) := by
  refine (parseFolderDeclaration_reads _).bind ?_
  intro a rest hmem
  set data : List UInt8 := folders.flatMap CompletedFolder.coderInfo with hdata
  have hnum : (UInt64.ofNat folders.length).toNat = folders.length := UInt64.toNat_ofNat_of_lt' hcount
  have hwalk : walkFolderBlocks ⟨a, data ++ rest⟩ folders.length (some []) ⟨a, data ++ rest⟩ =
      .ok (⟨some (definitionOffsets 0 folders), totalOutStreams coders⟩, ⟨a + data.length, rest⟩) := by
    have hblocks := @folderBlocks_written ⟨a, data ++ rest⟩ rest folders coders h a 0 0 []
      (by rw [Nat.zero_add]) (by rwa [Nat.zero_add]) (by rwa [Nat.zero_add])
    rwa [List.nil_append, Nat.zero_add] at hblocks
  have hscan : scanFolderBlocks ⟨a, data ++ rest⟩ folders.length (some []) =
      .ok (⟨some (definitionOffsets 0 folders), totalOutStreams coders⟩, data.length) := by
    unfold scanFolderBlocks
    rw [hwalk]
    simp [Except.bind, bind, pure, Except.pure]
  have hslice : bytesSubslice backing ⟨a, (data ++ rest).take data.length⟩ = .ok data := by
    have hview := bytesSubslice_within (Window.within_take hmem data.length)
    rw [List.take_left] at hview ⊢
    exact hview
  have hresolve : FolderSource.resolve .inline externalData ⟨a, data ++ rest⟩ =
      .ok (.inline ⟨a, data ++ rest⟩, ⟨a, data ++ rest⟩) := rfl
  dsimp only
  rw [bind_of_ok hresolve]
  simp only [FolderSource.bytes, FolderSource.backing, hnum, hscan, hslice, Except.mapError,
    Parser.ofExcept, pure_bind]
  unfold FolderSource.remainingHeader
  simp only [bind_assoc]
  rw [bind_of_ok (take_append _ a data rest)]
  rfl

theorem digestsOrAbsent_written (crcs : List (Option UInt32)) :
    digestsOrAbsent (if crcs.any Option.isSome then crcs else []) crcs.length = crcs := by
  unfold digestsOrAbsent
  by_cases hany : crcs.any Option.isSome
  · have hne : ¬crcs.isEmpty := by
      cases crcs with
      | nil => simp at hany
      | cons c crcs => simp
    rw [if_pos hany, if_neg hne]
  · have habsent : ∀ c ∈ crcs, c = none := fun c hc => by
      have hc' := List.any_eq_false.mp (Bool.not_eq_true _ ▸ hany) c hc
      simpa using hc'
    rw [if_neg hany, List.isEmpty_nil, if_pos rfl]
    exact (List.eq_replicate_of_mem habsent).symm

def coderSizes (folders : List CompletedFolder) : List UInt64 :=
  folders.flatMap CompletedFolder.coderUnpackSizes

def folderCrcs (folders : List CompletedFolder) : List (Option UInt32) :=
  folders.map CompletedFolder.folderCrc

def writtenUnpack (folders : List CompletedFolder) : UnpackInfo :=
  { numFolders := UInt64.ofNat folders.length
    folderData := folders.flatMap CompletedFolder.coderInfo
    folderOffsets := definitionOffsets 0 folders
    unpackSizes := coderSizes folders
    digests := folderCrcs folders }

theorem writeUnpackInfo_eq (folders : List CompletedFolder) : writeUnpackInfo folders =
    ([0x07] ++ ([0x0B] ++ (varuint folders.length ++ [0x00])) ++
      folders.flatMap CompletedFolder.coderInfo) ++
    (([0x0C] ++ (coderSizes folders).flatMap sevenzipVaruint64Encode) ++
      (writeOptionalCrcs (folderCrcs folders) ++ [0x00])) := by
  unfold writeUnpackInfo writeFolderCrcs coderSizes folderCrcs
  rw [List.flatMap_assoc]
  simp only [List.append_assoc, List.cons_append, List.nil_append]

theorem unpackEnd_reads {W : Window} {total : ℕ} {crcs : List (Option UInt32)}
    (sizes : List UInt64) :
    Reads W (loop (.error .eof) (UnpackInfo.turn total crcs.length) (sizes, []))
      (writeOptionalCrcs crcs ++ [0x00]) (sizes, if crcs.any Option.isSome then crcs else []) := by
  have hend (digests : List (Option UInt32)) : Reads W
      (loop (.error .eof) (UnpackInfo.turn total crcs.length) (sizes, digests)) [0x00]
      (sizes, digests) :=
    Reads.loop_done (List.cons_ne_nil _ _) ((Property.parse_reads .END).bind_nil (.pure _))
  rw [writeOptionalCrcs_eq]
  by_cases hany : crcs.any Option.isSome
  · rw [if_pos hany, if_pos hany]
    refine Reads.loop_again (List.cons_ne_nil _ _) ?_ (hend crcs)
    exact (Property.parse_reads .CRC).bind ((parseDigests_reads crcs).bind_nil (.pure _))
  · rw [if_neg hany, if_neg hany]
    exact hend []

theorem unpackLoop_reads {W : Window} {crcs : List (Option UInt32)} (sizes : List UInt64) :
    Reads W (loop (.error .eof) (UnpackInfo.turn sizes.length crcs.length) ([], []))
      (([0x0C] ++ sizes.flatMap sevenzipVaruint64Encode) ++ (writeOptionalCrcs crcs ++ [0x00]))
      (sizes, if crcs.any Option.isSome then crcs else []) := by
  refine Reads.loop_again (by simp) ?_ (unpackEnd_reads sizes)
  exact (Property.parse_reads .CodersUnPackSize).bind ((varuints_read sizes).bind_nil (.pure _))

theorem writeUnpackInfo_reads (h : Defines folders coders) (hcount : folders.length < 2 ^ 64)
    (hlt : (folders.flatMap CompletedFolder.coderInfo).length < 2 ^ 32)
    (hout : totalOutStreams coders < usizeLimit)
    (hsizes : (coderSizes folders).length = totalOutStreams coders) :
    Reads (Window.within backing) (UnpackInfo.parseWithExternal backing externalData)
      (writeUnpackInfo folders) (writtenUnpack folders) := by
  have hnum : (UInt64.ofNat folders.length).toNat = (folderCrcs folders).length := by
    rw [UInt64.toNat_ofNat_of_lt' hcount, folderCrcs, List.length_map]
  have hoffsets : (definitionOffsets 0 folders).length - 1 = (folderCrcs folders).length := by
    rw [definitionOffsets_length, folderCrcs, List.length_map, Nat.add_sub_cancel]
  rw [writeUnpackInfo_eq]
  refine (definitions_read h hcount hlt hout).bind ?_
  dsimp only [writtenDefinitions]
  rw [hnum, hoffsets, ← hsizes]
  refine (unpackLoop_reads _).bind_nil ?_
  dsimp only
  rw [digestsOrAbsent_written]
  exact .pure _

end

/-! Substreams -/

def fileCounts (folders : List CompletedFolder) : List UInt64 :=
  folders.map fun folder => UInt64.ofNat folder.fileIndices.length

def explicitSizes (folders : List CompletedFolder) : List UInt64 :=
  folders.flatMap fun folder => folder.fileSizes.dropLast

def fileCrcs (folders : List CompletedFolder) : List (Option UInt32) :=
  folders.flatMap CompletedFolder.fileCrcs

def substreamTables (folders : List CompletedFolder) : List UInt8 :=
  (if folders.any fun f => f.fileIndices.length ≠ 1 then
    [0x0D] ++ (fileCounts folders).flatMap sevenzipVaruint64Encode else []) ++
  (if folders.any fun f => f.fileIndices.length > 1 then
    [0x09] ++ (explicitSizes folders).flatMap sevenzipVaruint64Encode else [])

def substreamSection (folders : List CompletedFolder) (crcs : List (Option UInt32)) : List UInt8 :=
  [0x08] ++ (substreamTables folders ++ (writeOptionalCrcs crcs ++ [0x00]))

theorem writeSubstreamsInfo_eq (folders : List CompletedFolder) :
    writeSubstreamsInfo folders = substreamSection folders (fileCrcs folders) := by
  unfold writeSubstreamsInfo substreamSection substreamTables explicitSizes fileCounts fileCrcs varuint
  rw [List.flatMap_assoc, List.flatMap_map]
  simp only [List.append_assoc]

def writtenSubstreams (folders : List CompletedFolder) (crcs : List (Option UInt32)) : SubstreamInfo :=
  { numUnpackStreamsPerFolder := fileCounts folders
    unpackSizes := explicitSizes folders
    digests := if crcs.any Option.isSome then crcs else [] }

def fileTotal (folders : List CompletedFolder) : ℕ :=
  (folders.map fun folder => folder.fileIndices.length).sum

theorem length_le_fileTotal {folders : List CompletedFolder} {folder : CompletedFolder}
    (h : folder ∈ folders) : folder.fileIndices.length ≤ fileTotal folders :=
  List.single_le_sum (fun _ _ => Nat.zero_le _) _ (List.mem_map_of_mem h)

theorem streamSum_fileCounts {folders : List CompletedFolder} (h : fileTotal folders < 2 ^ 64) :
    streamSum (fileCounts folders) = fileTotal folders := by
  unfold streamSum fileCounts fileTotal
  rw [List.map_map]
  refine congrArg List.sum (List.map_congr_left fun folder hfolder => ?_)
  exact UInt64.toNat_ofNat_of_lt' ((length_le_fileTotal hfolder).trans_lt h)

theorem sizeSum_fileCounts {folders : List CompletedFolder} (h : fileTotal folders < 2 ^ 64)
    (hsizes : ∀ f ∈ folders, f.fileSizes.length = f.fileIndices.length) :
    sizeSum (fileCounts folders) = (explicitSizes folders).length := by
  unfold sizeSum fileCounts explicitSizes
  rw [List.map_map, List.length_flatMap]
  refine congrArg List.sum (List.map_congr_left fun folder hfolder => ?_)
  have hcount : (UInt64.ofNat folder.fileIndices.length).toNat = folder.fileIndices.length :=
    UInt64.toNat_ofNat_of_lt' ((length_le_fileTotal hfolder).trans_lt h)
  rw [Function.comp_apply, hcount, List.length_dropLast, hsizes folder hfolder]

theorem fileCounts_single {folders : List CompletedFolder}
    (h : ¬folders.any fun f => f.fileIndices.length ≠ 1) :
    fileCounts folders = List.replicate folders.length 1 := by
  refine List.eq_replicate_iff.mpr ⟨List.length_map _, fun count hcount => ?_⟩
  obtain ⟨folder, hfolder, rfl⟩ := List.mem_map.mp hcount
  have hone := List.any_eq_false.mp (Bool.not_eq_true _ ▸ h) folder hfolder
  have hlen : folder.fileIndices.length = 1 := by simpa using hone
  rw [hlen]
  rfl

theorem explicitSizes_none {folders : List CompletedFolder}
    (hsizes : ∀ f ∈ folders, f.fileSizes.length = f.fileIndices.length)
    (h : ¬folders.any fun f => f.fileIndices.length > 1) : explicitSizes folders = [] := by
  refine List.flatMap_eq_nil_iff.mpr fun folder hfolder => ?_
  have hle := List.any_eq_false.mp (Bool.not_eq_true _ ▸ h) folder hfolder
  have hlen : folder.fileSizes.length - 1 = 0 := by
    rw [hsizes folder hfolder]
    simp only [gt_iff_lt, decide_eq_true_eq, not_lt] at hle
    omega
  rw [← List.length_eq_zero_iff, List.length_dropLast, hlen]

section
variable {W : Window} {folders : List CompletedFolder}

theorem countsTurn_reads (n : ℕ) (acc : SubstreamInfo) {counts : List UInt64} (hn : counts.length = n)
    (htotal : streamSum counts < usizeLimit) :
    Reads W (SubstreamInfo.turn n acc) ([0x0D] ++ counts.flatMap sevenzipVaruint64Encode)
      (.again { acc with numUnpackStreamsPerFolder := counts }) := by
  refine (Property.parse_reads .NumUnPackStream).bind ?_
  dsimp only
  rw [← hn]
  refine (varuints_read counts).bind_nil ?_
  rw [checkedSubstreamTotal_eq, checkedUsize, if_pos htotal, pure_bind]
  exact .pure _

theorem sizesTurn_reads (n : ℕ) (acc : SubstreamInfo) {sizes : List UInt64}
    (hcount : sizeSum acc.numUnpackStreamsPerFolder = sizes.length)
    (hlt : sizes.length < usizeLimit) :
    Reads W (SubstreamInfo.turn n acc) ([0x09] ++ sizes.flatMap sevenzipVaruint64Encode)
      (.again { acc with unpackSizes := acc.unpackSizes ++ sizes }) := by
  refine (Property.parse_reads .Size).bind ?_
  dsimp only
  rw [checkedSubstreamSizeCount_eq, hcount, checkedUsize, if_pos hlt, pure_bind]
  exact checkRemaining_reads (length_le_flatMap_encode sizes) ((varuints_read sizes).bind_nil (.pure _))

theorem substreamTables_reads {e : List UInt8} {result : SubstreamInfo}
    (htotal : fileTotal folders < usizeLimit)
    (hsizes : ∀ f ∈ folders, f.fileSizes.length = f.fileIndices.length)
    (hrest : Reads W (loop (.error .eof) (SubstreamInfo.turn folders.length)
      { numUnpackStreamsPerFolder := fileCounts folders, unpackSizes := explicitSizes folders,
        digests := [] }) e result) :
    Reads W (loop (.error .eof) (SubstreamInfo.turn folders.length)
      (SubstreamInfo.initial folders.length)) (substreamTables folders ++ e) result := by
  have hsum : streamSum (fileCounts folders) = fileTotal folders := streamSum_fileCounts htotal
  have hsizeSum := sizeSum_fileCounts htotal hsizes
  have hlt : (explicitSizes folders).length < usizeLimit := by
    rw [← hsizeSum]
    exact (sizeSum_le _).trans_lt (hsum ▸ htotal)
  have hsizesPart : Reads W (loop (.error .eof) (SubstreamInfo.turn folders.length)
      { numUnpackStreamsPerFolder := fileCounts folders, unpackSizes := [], digests := [] })
      ((if folders.any fun f => f.fileIndices.length > 1 then
        [0x09] ++ (explicitSizes folders).flatMap sevenzipVaruint64Encode else []) ++ e) result := by
    split
    · exact Reads.loop_again (List.cons_ne_nil _ _) (sizesTurn_reads _ _ hsizeSum hlt) hrest
    · next hnone =>
      rw [explicitSizes_none hsizes hnone] at hrest
      exact hrest
  unfold substreamTables
  rw [List.append_assoc]
  split
  · refine Reads.loop_again (List.cons_ne_nil _ _) ?_ hsizesPart
    exact countsTurn_reads _ (SubstreamInfo.initial folders.length) (List.length_map _)
      (hsum ▸ htotal)
  · next hsingle =>
    unfold SubstreamInfo.initial
    rw [← fileCounts_single hsingle]
    exact hsizesPart

theorem substreamEnd_reads {crcs : List (Option UInt32)} {acc : SubstreamInfo} (n : ℕ)
    (hacc : acc.digests = []) (hcount : streamSum acc.numUnpackStreamsPerFolder = crcs.length)
    (hlimit : crcs.length ≤ MAX_SUBSTREAM_DIGESTS) :
    Reads W (loop (.error .eof) (SubstreamInfo.turn n) acc) (writeOptionalCrcs crcs ++ [0x00])
      { acc with digests := if crcs.any Option.isSome then crcs else [] } := by
  have hend (acc : SubstreamInfo) :
      Reads W (loop (.error .eof) (SubstreamInfo.turn n) acc) [0x00] acc :=
    Reads.loop_done (List.cons_ne_nil _ _) ((Property.parse_reads .END).bind_nil (.pure _))
  have hlt : crcs.length * 4 < usizeLimit := by
    unfold MAX_SUBSTREAM_DIGESTS at hlimit
    unfold usizeLimit
    omega
  have hlt' : crcs.length < usizeLimit := by omega
  rw [writeOptionalCrcs_eq]
  by_cases hany : crcs.any Option.isSome
  · rw [if_pos hany, if_pos hany]
    refine Reads.loop_again (List.cons_ne_nil _ _) ?_ (hend _)
    refine (Property.parse_reads .CRC).bind ?_
    dsimp only
    rw [checkedSubstreamTotal_eq, hcount, checkedUsize, if_pos hlt', pure_bind,
      checkSubstreamDigestLimit, if_neg (by omega), pure_bind]
    exact (parseStreamDigests_reads hlt).bind_nil (.pure _)
  · rw [if_neg hany, if_neg hany, ← hacc]
    exact hend acc

theorem writeSubstreamsInfo_reads (hsizes : ∀ f ∈ folders, f.fileSizes.length = f.fileIndices.length)
    (hcrcs : ∀ f ∈ folders, f.fileCrcs.length = f.fileIndices.length)
    (hlimit : fileTotal folders ≤ MAX_SUBSTREAM_DIGESTS) :
    Reads W (SubstreamInfo.parse folders.length) (writeSubstreamsInfo folders)
      (writtenSubstreams folders (fileCrcs folders)) := by
  have htotal : fileTotal folders < usizeLimit := hlimit.trans_lt (by decide)
  have hlen : (fileCrcs folders).length = fileTotal folders := by
    unfold fileCrcs fileTotal
    rw [List.length_flatMap]
    exact congrArg List.sum (List.map_congr_left hcrcs)
  rw [writeSubstreamsInfo_eq]
  refine (expectProperty_reads .SubStreamsInfo).bind ?_
  refine substreamTables_reads htotal hsizes ?_
  refine substreamEnd_reads _ rfl ?_ (hlen ▸ hlimit)
  rw [hlen]
  exact streamSum_fileCounts htotal

end

/-! The whole section -/

structure WiredFolder where
  folder : Folder
  graph : FolderGraph
  wired : folder.graph = .ok graph

/-- The lengths of a completed folder fit each other and its definition. -/
structure Consistent (completed : CompletedFolder) (w : WiredFolder) : Prop where
  definition : Folder.parse ⟨0, completed.coderInfo⟩ = .ok (w.folder, ⟨completed.coderInfo.length, []⟩)
  packSizes : completed.packSizes.length = w.graph.packedStreamCount
  coderSizes : completed.coderUnpackSizes.length = w.folder.totalOutStreams
  fileSizes : completed.fileSizes.length = completed.fileIndices.length
  fileCrcs : completed.fileCrcs.length = completed.fileIndices.length
  unpackSize : ∃ size, completed.coderUnpackSizes[w.graph.finalOutput]? = some size ∧
    (completed.fileSizes.map UInt64.toNat).sum = size.toNat

def writtenStreams (folders : List CompletedFolder) : StreamInfo :=
  { packInfo := some (writtenPack folders)
    unpackInfo := some (writtenUnpack folders)
    substreamInfo := some (writtenSubstreams folders (fileCrcs folders)) }

section
variable {folders : List CompletedFolder} {wired : List WiredFolder} {backing : Slice}
  {externalData : List Slice}

theorem defines_of_consistent (h : List.Forall₂ Consistent folders wired) :
    Defines folders (wired.map WiredFolder.folder) :=
  List.forall₂_map_right_iff.mpr (h.imp fun _ _ hc => Folder.parse_portable.reads hc.definition)

theorem coderSizes_length (h : List.Forall₂ Consistent folders wired) :
    (coderSizes folders).length = totalOutStreams (wired.map WiredFolder.folder) := by
  unfold coderSizes totalOutStreams
  rw [List.length_flatMap, List.map_map]
  refine congrArg List.sum ?_
  induction h with
  | nil => rfl
  | cons hc _ ih => rw [List.map_cons, List.map_cons, ih, hc.coderSizes, Function.comp_apply]

theorem Consistent.all_left {P : CompletedFolder → Prop} (h : List.Forall₂ Consistent folders wired)
    (hP : ∀ f w, Consistent f w → P f) : ∀ f ∈ folders, P f := by
  induction h with
  | nil => exact fun _ hf => nomatch hf
  | cons hc _ ih =>
    intro f hf
    rcases List.mem_cons.mp hf with rfl | hf
    · exact hP _ _ hc
    · exact ih f hf

theorem peekTag_reads {W : Window} {β : Type} {f : Property → NomParser β} {e e' : List UInt8} {v : β}
    (tag : Property) (he : e = [tag.toU8] ++ e') (h : Reads W (f tag) e v) :
    Reads W (peek Property.parse >>= f) e v := by
  subst he
  exact (Property.parse_reads tag).peek_bind h

theorem numFolders_written (folders : List CompletedFolder) :
    (writtenUnpack folders).numFoldersUsize = folders.length := by
  unfold UnpackInfo.numFoldersUsize writtenUnpack
  rw [definitionOffsets_length, Nat.add_sub_cancel]

theorem packTurn_reads {W : Window} (acc : StreamInfo) (hpacked : (packedSizes folders).length < 2 ^ 64) :
    Reads W (StreamInfo.turn backing externalData acc) (writePackInfo folders)
      (.again { acc with packInfo := some (writtenPack folders) }) :=
  peekTag_reads .PackInfo (writePackInfo_eq folders)
    ((writePackInfo_reads hpacked).bind_nil (.pure _))

theorem unpackTurn_reads (acc : StreamInfo) {coders : List Folder} (hdefines : Defines folders coders)
    (hcount : folders.length < 2 ^ 64)
    (hdefs : (folders.flatMap CompletedFolder.coderInfo).length < 2 ^ 32)
    (hout : totalOutStreams coders < usizeLimit)
    (hsizes : (coderSizes folders).length = totalOutStreams coders) :
    Reads (Window.within backing) (StreamInfo.turn backing externalData acc) (writeUnpackInfo folders)
      (.again { acc with unpackInfo := some (writtenUnpack folders) }) :=
  peekTag_reads .UnPackInfo (writeUnpackInfo_eq folders)
    ((writeUnpackInfo_reads hdefines hcount hdefs hout hsizes).bind_nil (.pure _))

theorem streamSection_reads {crcs : List (Option UInt32)} {substreams : SubstreamInfo}
    (hdefines : Defines folders (wired.map WiredFolder.folder))
    (hcoderSizes : (coderSizes folders).length = totalOutStreams (wired.map WiredFolder.folder))
    (hpacked : (packedSizes folders).length < 2 ^ 64) (hcount : folders.length < 2 ^ 64)
    (hsizes : (coderSizes folders).length < 2 ^ 64)
    (hdefs : (folders.flatMap CompletedFolder.coderInfo).length < 2 ^ 32)
    (hsubstreams : Reads (Window.within backing) (SubstreamInfo.parse folders.length)
      (substreamSection folders crcs) substreams) :
    Reads (Window.within backing) (StreamInfo.parseWithExternal backing externalData)
      (writePackInfo folders ++ (writeUnpackInfo folders ++ (substreamSection folders crcs ++ [0x00])))
      { packInfo := some (writtenPack folders), unpackInfo := some (writtenUnpack folders),
        substreamInfo := some substreams } := by
  let pack := some (writtenPack folders)
  let unpack := some (writtenUnpack folders)
  have hunpack : Reads (Window.within backing)
      (StreamInfo.turn backing externalData ⟨pack, none, none⟩) (writeUnpackInfo folders)
      (.again ⟨pack, unpack, none⟩) :=
    unpackTurn_reads _ hdefines hcount hdefs (hcoderSizes ▸ hsizes) hcoderSizes
  have hsubstreamTurn : Reads (Window.within backing)
      (StreamInfo.turn backing externalData ⟨pack, unpack, none⟩) (substreamSection folders crcs)
      (.again ⟨pack, unpack, some substreams⟩) := by
    refine peekTag_reads .SubStreamsInfo rfl ?_
    dsimp only [unpack, Option.map_some, Option.getD_some]
    rw [numFolders_written]
    exact hsubstreams.bind_nil (.pure _)
  have hend : Reads (Window.within backing)
      (StreamInfo.turn backing externalData ⟨pack, unpack, some substreams⟩) [0x00]
      (.done ⟨pack, unpack, some substreams⟩) :=
    peekTag_reads .END rfl ((Property.parse_reads .END).bind_nil (.pure _))
  refine Reads.loop_again (List.cons_ne_nil _ _) (packTurn_reads StreamInfo.empty hpacked) ?_
  refine Reads.loop_again (List.cons_ne_nil _ _) hunpack ?_
  refine Reads.loop_again (List.cons_ne_nil _ _) hsubstreamTurn ?_
  exact Reads.loop_done (List.cons_ne_nil _ _) hend

end

end R7z
