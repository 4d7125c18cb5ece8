import R7z.FolderTables
import R7z.StreamsRoundTrip

/-! The tables of a written stream section are handed out folder by folder, as they were put in. -/

namespace R7z

open Wire Wire.Parser Write

/-! Folders -/

theorem packedSizes_append (before after : List CompletedFolder) :
    packedSizes (before ++ after) = packedSizes before ++ packedSizes after := List.flatMap_append

theorem coderSizes_append (before after : List CompletedFolder) :
    coderSizes (before ++ after) = coderSizes before ++ coderSizes after := List.flatMap_append

theorem explicitSizes_append (before after : List CompletedFolder) :
    explicitSizes (before ++ after) = explicitSizes before ++ explicitSizes after :=
  List.flatMap_append

theorem fileTotal_append (before after : List CompletedFolder) :
    fileTotal (before ++ after) = fileTotal before + fileTotal after := by
  unfold fileTotal
  rw [List.map_append, List.sum_append]

/-- Where the walk over the folders stands behind `before`, with a digest table of its own. -/
def plansAfter (folders : List CompletedFolder) (table : List (Option UInt32))
    (before : List CompletedFolder) : FolderPlans :=
  { packInfo := writtenPack folders
    unpackInfo := writtenUnpack folders
    substreamInfo := some { numUnpackStreamsPerFolder := fileCounts folders
                            unpackSizes := explicitSizes folders
                            digests := table }
    folderIndex := before.length
    packIndex := (packedSizes before).length
    outputBase := (coderSizes before).length
    packOffset := ((packedSizes before).map UInt64.toNat).sum
    streamSizeBase := (explicitSizes before).length
    streamDigestBase := fileTotal before
    finished := false }

def tablePart (table : List (Option UInt32)) (before : List CompletedFolder)
    (folder : CompletedFolder) : List (Option UInt32) :=
  (table.drop (fileTotal before)).take folder.fileIndices.length

def writtenLayout (table : List (Option UInt32)) (before : List CompletedFolder)
    (folder : CompletedFolder) (w : WiredFolder) (unpackSize : UInt64) : FolderLayout :=
  { folder := w.folder
    graph := w.graph
    streams := { sizes := folder.packSizes
                 digests := List.replicate folder.packSizes.length none
                 start := ((packedSizes before).map UInt64.toNat).sum }
    coderSizes := folder.coderUnpackSizes
    unpackSize
    crc := folder.folderCrc
    layout := layoutOf folder.fileSizes (tablePart table before folder) }

section
variable {folders before after : List CompletedFolder} {folder : CompletedFolder} {w : WiredFolder}

theorem folderBytes_of_offsets {info : UnpackInfo} {i : ℕ} {start stop : UInt32}
    (hstart : info.folderOffsets[i]? = some start) (hstop : info.folderOffsets[i + 1]? = some stop)
    (hle : start.toNat ≤ stop.toNat) (hlen : stop.toNat ≤ info.folderData.length) :
    info.folderBytes i =
      .ok ⟨start.toNat, (info.folderData.drop start.toNat).take (stop.toNat - start.toNat)⟩ := by
  have hguard : ¬(start > stop ∨ stop.toNat > info.folderData.length) := by
    rw [gt_iff_lt, UInt32.lt_iff_toNat_lt]
    omega
  unfold UnpackInfo.folderBytes
  rw [hstart, hstop]
  exact if_neg hguard

theorem folderBytes_written (hdefs : (folders.flatMap CompletedFolder.coderInfo).length < 2 ^ 32)
    (hfolders : folders = before ++ folder :: after) :
    (writtenUnpack folders).folderBytes before.length =
      .ok ⟨(before.flatMap CompletedFolder.coderInfo).length, folder.coderInfo⟩ := by
  subst hfolders
  set start := (before.flatMap CompletedFolder.coderInfo).length with hstart
  have hsplit : (before ++ folder :: after).flatMap CompletedFolder.coderInfo =
      before.flatMap CompletedFolder.coderInfo ++
        (folder.coderInfo ++ after.flatMap CompletedFolder.coderInfo) := by
    rw [List.flatMap_append, List.flatMap_cons]
  have hbound : start + folder.coderInfo.length < 2 ^ 32 := by
    rw [hsplit, List.length_append, List.length_append] at hdefs
    omega
  have hfirst : (definitionOffsets 0 (before ++ folder :: after))[before.length]? =
      some (UInt32.ofNat start) := by
    rw [definitionOffsets_append, Nat.zero_add]
  have hsecond : (definitionOffsets 0 (before ++ folder :: after))[before.length + 1]? =
      some (UInt32.ofNat (start + folder.coderInfo.length)) := by
    have hnext := definitionOffsets_append (before ++ [folder]) after 0
    rw [List.append_assoc, List.singleton_append, List.length_append, List.length_singleton,
      List.flatMap_append, List.length_append, Nat.zero_add, List.flatMap_singleton] at hnext
    exact hnext
  have hstartNat : (UInt32.ofNat start).toNat = start :=
    UInt32.toNat_ofNat_of_lt' (Nat.lt_of_le_of_lt (Nat.le_add_right _ _) hbound)
  have hstopNat : (UInt32.ofNat (start + folder.coderInfo.length)).toNat =
      start + folder.coderInfo.length := UInt32.toNat_ofNat_of_lt' hbound
  rw [folderBytes_of_offsets hfirst hsecond, hstartNat, hstopNat, Nat.add_sub_cancel_left]
  · change Except.ok (Slice.mk start ((List.drop start (List.flatMap _ (before ++ folder :: after))).take
      folder.coderInfo.length)) = _
    rw [hsplit, List.drop_left, List.take_left]
  · rw [hstartNat, hstopNat]
    exact Nat.le_add_right _ _
  · rw [hstopNat]
    change _ ≤ ((before ++ folder :: after).flatMap CompletedFolder.coderInfo).length
    rw [hsplit, List.length_append, List.length_append]
    omega

theorem parseFolder_written (hdefs : (folders.flatMap CompletedFolder.coderInfo).length < 2 ^ 32)
    (hfolders : folders = before ++ folder :: after) (hfolder : Consistent folder w) :
    (writtenUnpack folders).parseFolderWithGraph before.length = .ok (w.folder, w.graph) := by
  have hread := Folder.parse_portable.reads hfolder.definition
    (before.flatMap CompletedFolder.coderInfo).length [] trivial
  rw [List.append_nil] at hread
  unfold UnpackInfo.parseFolderWithGraph
  rw [folderBytes_written hdefs hfolders, ok_bind, hread]
  dsimp only
  rw [if_neg (by simp), w.wired, ok_bind]
  rfl

/-- The totals of the folders fit the fields that hold them. -/
structure Bounded (folders : List CompletedFolder) : Prop where
  packTotal : ((packedSizes folders).map UInt64.toNat).sum < 2 ^ 64
  definitions : (folders.flatMap CompletedFolder.coderInfo).length < 2 ^ 32
  packCount : (packedSizes folders).length < 2 ^ 64
  coderCount : (coderSizes folders).length < 2 ^ 64
  files : fileTotal folders ≤ MAX_SUBSTREAM_DIGESTS

theorem Bounded.files_lt (h : Bounded folders) : fileTotal folders < 2 ^ 64 :=
  h.files.trans_lt (by decide)

theorem tablePart_length {table : List (Option UInt32)} (hfolders : folders = before ++ folder :: after)
    (htable : table = [] ∨ table.length = fileTotal folders) :
    tablePart table before folder = [] ∨
      (tablePart table before folder).length = folder.fileIndices.length := by
  rcases htable with rfl | hlen
  · exact .inl (by simp [tablePart])
  · refine .inr ?_
    have htotal : fileTotal folders = fileTotal before + (folder.fileIndices.length + fileTotal after) := by
      rw [hfolders, fileTotal_append]
      rfl
    rw [tablePart, List.length_take, List.length_drop, hlen, htotal]
    omega

theorem streamDigests_written {table : List (Option UInt32)}
    (hfolders : folders = before ++ folder :: after)
    (htable : table = [] ∨ table.length = fileTotal folders) :
    (plansAfter folders table before).streamDigests (fileTotal before + folder.fileIndices.length) =
      .ok (tablePart table before folder) := by
  unfold FolderPlans.streamDigests plansAfter
  dsimp only
  rcases htable with rfl | hlen
  · simp [tablePart]
  · have htotal : fileTotal folders = fileTotal before + (folder.fileIndices.length + fileTotal after) := by
      rw [hfolders, fileTotal_append]
      rfl
    by_cases hempty : table.isEmpty
    · rw [List.isEmpty_iff.mp hempty]
      simp [tablePart]
    · have hle : fileTotal before ≤ fileTotal before + folder.fileIndices.length ∧
          fileTotal before + folder.fileIndices.length ≤ table.length := by omega
      rw [if_pos hempty, getRange, if_pos hle, Nat.add_sub_cancel_left]
      rfl

theorem folderStreamCount_written {table : List (Option UInt32)} (hb : Bounded folders)
    (hfolders : folders = before ++ folder :: after) :
    (plansAfter folders table before).folderStreamCount = .ok folder.fileIndices.length := by
  have hget : (fileCounts folders)[before.length]? = some (UInt64.ofNat folder.fileIndices.length) := by
    rw [fileCounts, List.getElem?_map, hfolders]
    simp
  have hmem : folder ∈ folders := by
    rw [hfolders]
    simp
  have hcount : (UInt64.ofNat folder.fileIndices.length).toNat = folder.fileIndices.length :=
    UInt64.toNat_ofNat_of_lt' ((length_le_fileTotal hmem).trans_lt hb.files_lt)
  unfold FolderPlans.folderStreamCount plansAfter
  dsimp only
  rw [hget]
  change Except.ok (UInt64.ofNat folder.fileIndices.length).toNat = _
  rw [hcount]

theorem explicitSizes_length_le
    (hsizes : ∀ f ∈ folders, f.fileSizes.length = f.fileIndices.length) :
    (explicitSizes folders).length ≤ fileTotal folders := by
  unfold explicitSizes fileTotal
  rw [List.length_flatMap]
  refine List.sum_le_sum fun f hf => ?_
  rw [List.length_dropLast, hsizes f hf]
  exact Nat.sub_le _ _

theorem nextFolder_written {table : List (Option UInt32)} {unpackSize : UInt64} (hb : Bounded folders)
    (htable : table = [] ∨ table.length = fileTotal folders)
    (hsizes : ∀ f ∈ folders, f.fileSizes.length = f.fileIndices.length)
    (hfolders : folders = before ++ folder :: after) (hfolder : Consistent folder w)
    (hsize : folder.coderUnpackSizes[w.graph.finalOutput]? = some unpackSize)
    (hsum : (folder.fileSizes.map UInt64.toNat).sum = unpackSize.toNat) :
    (plansAfter folders table before).nextFolder =
      .ok (writtenLayout table before folder w unpackSize,
        plansAfter folders table (before ++ [folder])) := by
  have hfolderParse := parseFolder_written hb.definitions hfolders hfolder
  -- how each table goes on from this folder
  have hpackedLen : (packedSizes folders).length =
      (packedSizes before).length + (folder.packSizes.length + (packedSizes after).length) := by
    rw [hfolders, packedSizes_append, List.length_append]
    exact congrArg _ List.length_append
  have hcoderLen : (coderSizes folders).length =
      (coderSizes before).length + (folder.coderUnpackSizes.length + (coderSizes after).length) := by
    rw [hfolders, coderSizes_append, List.length_append]
    exact congrArg _ List.length_append
  have htotal : fileTotal folders = fileTotal before + (folder.fileIndices.length + fileTotal after) := by
    rw [hfolders, fileTotal_append]
    rfl
  have hexplicit : (explicitSizes (before ++ [folder])).length =
      (explicitSizes before).length + (folder.fileIndices.length - 1) := by
    rw [explicitSizes_append, List.length_append, ← hfolder.fileSizes]
    simp [explicitSizes]
  -- no place in them leaves a machine word
  have hpackEnd : checkedUsizeAdd (packedSizes before).length w.graph.packedStreamCount =
      .ok ((packedSizes before).length + folder.packSizes.length) := by
    rw [← hfolder.packSizes]
    refine checkedUsizeAdd_ok (lt_of_le_of_lt ?_ hb.packCount)
    omega
  have houtputEnd : checkedUsizeAdd (coderSizes before).length w.folder.totalOutStreams =
      .ok ((coderSizes before).length + folder.coderUnpackSizes.length) := by
    rw [← hfolder.coderSizes]
    refine checkedUsizeAdd_ok (lt_of_le_of_lt ?_ hb.coderCount)
    omega
  have hsizeEnd : checkedUsizeAdd (explicitSizes before).length (folder.fileIndices.length - 1) =
      .ok (explicitSizes (before ++ [folder])).length := by
    have hle := @explicitSizes_length_le (before ++ [folder]) fun f hf => hsizes f (by
      rw [hfolders]
      simp only [List.mem_append, List.mem_cons, List.not_mem_nil] at hf ⊢
      tauto)
    have hshort : fileTotal (before ++ [folder]) ≤ fileTotal folders := by
      rw [fileTotal_append, htotal]
      exact Nat.add_le_add_left (Nat.le_add_right _ _) _
    rw [hexplicit] at hle ⊢
    exact checkedUsizeAdd_ok ((hle.trans hshort).trans_lt hb.files_lt)
  have hdigestEnd : checkedUsizeAdd (fileTotal before) folder.fileIndices.length =
      .ok (fileTotal before + folder.fileIndices.length) := by
    refine checkedUsizeAdd_ok (lt_of_le_of_lt ?_ hb.files_lt)
    omega
  -- so each cut is this folder's own part
  have hpackRange : getRange (packedSizes folders) (packedSizes before).length
      ((packedSizes before).length + folder.packSizes.length) = some folder.packSizes := by
    rw [hfolders]
    exact getRange_flatMap CompletedFolder.packSizes before after folder
  have hcoderRange : getRange (coderSizes folders) (coderSizes before).length
      ((coderSizes before).length + folder.coderUnpackSizes.length) = some folder.coderUnpackSizes := by
    rw [hfolders]
    exact getRange_flatMap CompletedFolder.coderUnpackSizes before after folder
  have hexplicitRange : (plansAfter folders table before).explicitStreamSizes
      (explicitSizes (before ++ [folder])).length = .ok folder.fileSizes.dropLast := by
    have hrange := getRange_flatMap (fun f : CompletedFolder => f.fileSizes.dropLast) before after folder
    rw [List.length_dropLast, hfolder.fileSizes] at hrange
    unfold FolderPlans.explicitStreamSizes plansAfter
    dsimp only
    rw [hexplicit, hfolders]
    exact congrArg orParseError hrange
  have hlayout : FolderStreamLayout.new unpackSize folder.fileIndices.length folder.fileSizes.dropLast
      (tablePart table before folder) = .ok (layoutOf folder.fileSizes (tablePart table before folder)) := by
    have hpart := tablePart_length hfolders htable
    rw [← hfolder.fileSizes] at hpart ⊢
    exact layout_new hsum hpart
  have hpackSum : ((packedSizes folders).map UInt64.toNat).sum =
      ((packedSizes before).map UInt64.toNat).sum + ((folder.packSizes.map UInt64.toNat).sum +
        ((packedSizes after).map UInt64.toNat).sum) := by
    rw [hfolders, packedSizes_append]
    simp [packedSizes]
  have hoffset : sumSizes folder.packSizes ((packedSizes before).map UInt64.toNat).sum =
      .ok (((packedSizes before).map UInt64.toNat).sum + (folder.packSizes.map UInt64.toNat).sum) := by
    refine sumSizes_ok (lt_of_le_of_lt ?_ hb.packTotal)
    omega
  have hpackDigests : getRange (writtenPack folders).digests (packedSizes before).length
      (min ((packedSizes before).length + folder.packSizes.length) (writtenPack folders).digests.length) =
        some (List.replicate folder.packSizes.length none) := by
    have hmin : min ((packedSizes before).length + folder.packSizes.length)
        (writtenPack folders).digests.length = (packedSizes before).length + folder.packSizes.length := by
      rw [writtenPack, List.length_replicate]
      omega
    rw [hmin]
    exact getRange_replicate _ _ _ _ (by omega)
  have hcrc : ((writtenUnpack folders).digests[before.length]?).join = folder.folderCrc := by
    change (((folders.map CompletedFolder.folderCrc))[before.length]?).join = _
    rw [hfolders]
    simp
  have hnext := @FolderPlans.nextFolder_of (plansAfter folders table before) _ _ _ _ _ _ _ _ _ _ _ _ _ _ hfolderParse hpackEnd
    (congrArg orParseError hpackRange) houtputEnd (congrArg orParseError hcoderRange)
    (congrArg orParseError hsize) (folderStreamCount_written hb hfolders) hsizeEnd hexplicitRange
    hdigestEnd (streamDigests_written hfolders htable) hlayout hoffset
  rw [hnext]
  -- and the places are those behind it
  have hafter : plansAfter folders table (before ++ [folder]) =
      { plansAfter folders table before with
        folderIndex := before.length + 1
        packIndex := (packedSizes before).length + folder.packSizes.length
        packOffset := ((packedSizes before).map UInt64.toNat).sum + (folder.packSizes.map UInt64.toNat).sum
        outputBase := (coderSizes before).length + folder.coderUnpackSizes.length
        streamSizeBase := (explicitSizes (before ++ [folder])).length
        streamDigestBase := fileTotal before + folder.fileIndices.length } := by
    unfold plansAfter
    rw [packedSizes_append, coderSizes_append, fileTotal_append]
    simp [packedSizes, coderSizes, fileTotal]
  rw [hafter]
  unfold writtenLayout
  rw [← hcrc]
  have hdigests : (getRange (writtenPack folders).digests (packedSizes before).length
      (min ((packedSizes before).length + folder.packSizes.length)
        (writtenPack folders).digests.length)).getD [] = List.replicate folder.packSizes.length none := by
    rw [hpackDigests]
    rfl
  rw [← hdigests]
  rfl

/-- The size of a folder's output: that of the one coder output that feeds no other coder. -/
def finalOutputSize (folder : CompletedFolder) (w : WiredFolder) : UInt64 :=
  (folder.coderUnpackSizes[w.graph.finalOutput]?).getD 0

def writtenLayouts (table : List (Option UInt32)) :
    List CompletedFolder → List CompletedFolder → List WiredFolder → List FolderLayout
  | before, folder :: folders, w :: wired =>
    writtenLayout table before folder w (finalOutputSize folder w) ::
      writtenLayouts table (before ++ [folder]) folders wired
  | _, _, _ => []

theorem validateComplete_written {table : List (Option UInt32)} (hb : Bounded folders)
    (hcount : folders.length < 2 ^ 64) (htable : table = [] ∨ table.length = fileTotal folders) :
    (plansAfter folders table folders).validateComplete = .ok () := by
  have hpack : (UInt64.ofNat (packedSizes folders).length).toNat = (packedSizes folders).length :=
    UInt64.toNat_ofNat_of_lt' hb.packCount
  have hfolders : (UInt64.ofNat folders.length).toNat = folders.length :=
    UInt64.toNat_ofNat_of_lt' hcount
  have hcounts : (fileCounts folders).length = folders.length := List.length_map _
  have hdigests : table.isEmpty || decide (table.length = fileTotal folders) := by
    rcases htable with rfl | hlen
    · rfl
    · simp [hlen]
  refine if_neg ?_
  unfold plansAfter
  dsimp only
  rw [numFolders_written]
  simp only [writtenPack, writtenUnpack, folderCrcs, hpack, hfolders, hcounts, hdigests,
    List.length_replicate, List.length_map]
  simp

theorem collect_written {table : List (Option UInt32)} {streamCount : ℕ} (hb : Bounded folders)
    (hcount : folders.length < 2 ^ 64) (htable : table = [] ∨ table.length = fileTotal folders)
    (hsizes : ∀ f ∈ folders, f.fileSizes.length = f.fileIndices.length)
    {left : List CompletedFolder} {wired : List WiredFolder} (h : List.Forall₂ Consistent left wired) :
    ∀ before, folders = before ++ left →
      FolderLayouts.collect (left.length + 1) ⟨plansAfter folders table before, streamCount⟩ =
        .ok (writtenLayouts table before left wired) := by
  induction h with
  | nil =>
    intro before hfolders
    rw [List.append_nil] at hfolders
    subst hfolders
    have hnext : (plansAfter folders table folders).next =
        (none, { plansAfter folders table folders with finished := true }) := by
      have hend : (plansAfter folders table folders).folderIndex =
          (plansAfter folders table folders).unpackInfo.numFoldersUsize :=
        (numFolders_written folders).symm
      unfold FolderPlans.next
      rw [if_neg (by simp [plansAfter]), if_pos hend, validateComplete_written hb hcount htable]
    unfold FolderLayouts.collect FolderLayouts.next
    rw [hnext]
    rfl
  | @cons folder w left wired hfolder hrest ih =>
    intro before hfolders
    obtain ⟨size, hsize, hsum⟩ := hfolder.unpackSize
    have hfinal : finalOutputSize folder w = size := by
      rw [finalOutputSize, hsize]
      rfl
    have hstep := nextFolder_written hb htable hsizes hfolders hfolder hsize hsum
    have hnext : (plansAfter folders table before).next =
        (some (.ok (writtenLayout table before folder w size)),
          plansAfter folders table (before ++ [folder])) := by
      have hlast : ¬(plansAfter folders table before).folderIndex =
          (plansAfter folders table before).unpackInfo.numFoldersUsize := by
        change ¬before.length = (writtenUnpack folders).numFoldersUsize
        rw [numFolders_written, hfolders, List.length_append, List.length_cons]
        omega
      unfold FolderPlans.next
      rw [if_neg (by simp [plansAfter]), if_neg hlast, hstep]
    rw [List.length_cons, FolderLayouts.collect, FolderLayouts.next, hnext]
    dsimp only
    rw [ih (before ++ [folder]) (by rw [hfolders, List.append_assoc]; rfl), ok_bind, writtenLayouts, hfinal]
    rfl

def streamsWith (folders : List CompletedFolder) (table : List (Option UInt32)) : StreamInfo :=
  { packInfo := some (writtenPack folders)
    unpackInfo := some (writtenUnpack folders)
    substreamInfo := some { numUnpackStreamsPerFolder := fileCounts folders
                            unpackSizes := explicitSizes folders
                            digests := table } }

theorem forStreams_written (table : List (Option UInt32)) (hb : Bounded folders)
    (hcount : folders.length < 2 ^ 64) :
    FolderLayouts.forStreams (streamsWith folders table) =
      .ok ⟨plansAfter folders table [], fileTotal folders⟩ := by
  have hpack : (UInt64.ofNat (packedSizes folders).length).toNat = (packedSizes folders).length :=
    UInt64.toNat_ofNat_of_lt' hb.packCount
  have hfolders : (UInt64.ofNat folders.length).toNat = folders.length :=
    UInt64.toNat_ofNat_of_lt' hcount
  have hsum := streamSum_fileCounts hb.files_lt
  have hstreams : substreamCount folders.length (streamsWith folders table).substreamInfo =
      .ok (fileTotal folders) := by
    have htotal : sumSizes (fileCounts folders) 0 = .ok (fileTotal folders) := by
      rw [← hsum, ← Nat.zero_add (streamSum _)]
      refine sumSizes_ok ?_
      rw [Nat.zero_add]
      exact lt_of_eq_of_lt hsum hb.files_lt
    have hlen : (fileCounts folders).length = folders.length := List.length_map _
    exact (if_neg (not_not_intro hlen)).trans htotal
  have hpacked : (streamsWith folders table).packedFolders =
      .ok (writtenPack folders, writtenUnpack folders) := rfl
  unfold FolderLayouts.forStreams
  rw [hpacked, ok_bind]
  dsimp only
  rw [numFolders_written, if_neg, hstreams, ok_bind]
  · rfl
  · simp only [writtenPack, writtenUnpack, folderCrcs, hpack, hfolders, List.length_replicate,
      List.length_map]
    simp

end

/-! What comes back -/

theorem layouts_written {folders : List CompletedFolder} {wired : List WiredFolder}
    {table : List (Option UInt32)} (h : List.Forall₂ Consistent folders wired) (hb : Bounded folders)
    (hcount : folders.length < 2 ^ 64) (htable : table = [] ∨ table.length = fileTotal folders) :
    ∃ start, FolderLayouts.forStreams (streamsWith folders table) = .ok start ∧
      start.toList = .ok (writtenLayouts table [] folders wired) := by
  have hsizes := Consistent.all_left h fun _ _ hc => hc.fileSizes
  have hcollect := @collect_written folders _ (fileTotal folders) hb hcount htable hsizes _ _ h [] rfl
  refine ⟨_, forStreams_written table hb hcount, ?_⟩
  unfold FolderLayouts.toList
  have hfolders := numFolders_written folders
  exact (congrArg (fun n => FolderLayouts.collect (n + 1) _) hfolders).trans hcollect

/-- The streams of a folder, as many as its files and each with the size and the digest of one. -/
structure HoldsFiles (folder : CompletedFolder) (layout : FolderLayout) : Prop where
  count : layout.substreams.remaining = folder.fileIndices.length
  sizes : layout.substreams.toList.map (fun stream => stream.stop - stream.start) =
    folder.fileSizes.map UInt64.toNat
  crcs : layout.substreams.toList.map Substream.digest = folder.fileCrcs

/-- A header's streams give the folders back. -/
structure GivesBack (folders : List CompletedFolder) (wired : List WiredFolder) (streams : StreamInfo) :
    Prop where
  packed : ∃ pack, streams.packInfo = some pack ∧ pack.packPos = 0 ∧ pack.packSize = packedSizes folders
  defined : ∃ unpack, streams.unpackInfo = some unpack ∧ unpack.numFoldersUsize = folders.length ∧
    (∀ i w, wired[i]? = some w → unpack.parseFolder i = .ok w.folder) ∧
    unpack.unpackSizes = coderSizes folders ∧ unpack.digests = folderCrcs folders
  laidOut : ∃ start layouts, FolderLayouts.forStreams streams = .ok start ∧
    start.toList = .ok layouts ∧ List.Forall₂ HoldsFiles folders layouts

section
variable {folders : List CompletedFolder} {wired : List WiredFolder}

theorem fileCrcs_length (hcrcs : ∀ f ∈ folders, f.fileCrcs.length = f.fileIndices.length) :
    (fileCrcs folders).length = fileTotal folders := by
  unfold fileCrcs fileTotal
  rw [List.length_flatMap]
  exact congrArg List.sum (List.map_congr_left hcrcs)

theorem holdsFiles_written {before after : List CompletedFolder} {folder : CompletedFolder}
    {w : WiredFolder} (hfolders : folders = before ++ folder :: after)
    (hcrcs : ∀ f ∈ folders, f.fileCrcs.length = f.fileIndices.length) (hfolder : Consistent folder w)
    (unpackSize : UInt64) :
    HoldsFiles folder (writtenLayout
      (if (fileCrcs folders).any Option.isSome then fileCrcs folders else []) before folder w unpackSize) := by
  have hbefore : (fileCrcs before).length = fileTotal before := fileCrcs_length fun f hf => hcrcs f (by
    rw [hfolders]
    exact List.mem_append_left _ hf)
  have hstreams (digests : List (Option UInt32)) :
      (layoutOf folder.fileSizes digests).streams.toList = substreamsFrom digests 0 0 folder.fileSizes :=
    layoutOf_toList _ _
  refine ⟨?_, ?_, ?_⟩
  · exact (layoutOf_len _ _).trans hfolder.fileSizes
  · exact (congrArg _ (hstreams _)).trans (substreamsFrom_size _ _ _ _)
  · refine (congrArg _ (hstreams _)).trans ?_
    by_cases hany : (fileCrcs folders).any Option.isSome
    · have hpart : tablePart (fileCrcs folders) before folder = folder.fileCrcs := by
        unfold tablePart
        rw [hfolders, ← hbefore, ← hfolder.fileCrcs]
        unfold fileCrcs
        rw [List.flatMap_append, List.flatMap_cons, List.drop_left, List.take_left]
      have hlen : folder.fileCrcs.length = 0 + folder.fileSizes.length := by
        rw [Nat.zero_add, hfolder.fileCrcs, hfolder.fileSizes]
      rw [if_pos hany, hpart, substreamsFrom_digest _ _ _ _ hlen, List.drop_zero]
    · have hpart : tablePart [] before folder = [] := by simp [tablePart]
      have habsent : folder.fileCrcs = List.replicate folder.fileSizes.length none := by
        refine List.eq_replicate_iff.mpr ⟨hfolder.fileCrcs.trans hfolder.fileSizes.symm, fun c hc => ?_⟩
        have hmem : c ∈ fileCrcs folders := by
          refine List.mem_flatMap.mpr ⟨folder, ?_, hc⟩
          rw [hfolders]
          exact List.mem_append_right _ (List.mem_cons_self ..)
        have hc' := List.any_eq_false.mp (Bool.not_eq_true _ ▸ hany) c hmem
        simpa using hc'
      rw [if_neg hany, hpart, substreamsFrom_no_digest, habsent]

theorem layouts_holdFiles (hcrcs : ∀ f ∈ folders, f.fileCrcs.length = f.fileIndices.length)
    {left : List CompletedFolder} (h : List.Forall₂ Consistent left wired) :
    ∀ before, folders = before ++ left → List.Forall₂ HoldsFiles left
      (writtenLayouts (if (fileCrcs folders).any Option.isSome then fileCrcs folders else []) before
        left wired) := by
  induction h with
  | nil => exact fun _ _ => .nil
  | @cons folder w left wired hfolder _ ih =>
    intro before hfolders
    refine .cons (holdsFiles_written hfolders hcrcs hfolder _) (ih (before ++ [folder]) ?_)
    rw [hfolders, List.append_assoc]
    rfl

theorem parseFolder_of_wired {i : ℕ} {w : WiredFolder}
    (hdefs : (folders.flatMap CompletedFolder.coderInfo).length < 2 ^ 32)
    (h : List.Forall₂ Consistent folders wired) (hw : wired[i]? = some w) :
    (writtenUnpack folders).parseFolder i = .ok w.folder := by
  obtain ⟨hi, hget⟩ := List.getElem?_eq_some_iff.mp hw
  have hi' : i < folders.length := h.length_eq ▸ hi
  have hsplit : folders = folders.take i ++ folders[i] :: folders.drop (i + 1) := by
    rw [← List.drop_eq_getElem_cons hi', List.take_append_drop]
  have hfolder : Consistent folders[i] w := hget ▸ (List.forall₂_iff_get.mp h).2 i hi' hi
  have hparse := parseFolder_written hdefs hsplit hfolder
  have hlen : (folders.take i).length = i := by
    rw [List.length_take]
    omega
  rw [hlen] at hparse
  unfold UnpackInfo.parseFolder
  rw [hparse, ok_bind]
  rfl

theorem coderInfo_ne_nil {folder : CompletedFolder} {w : WiredFolder} (h : Consistent folder w) :
    0 < folder.coderInfo.length := by
  have hparse := h.definition
  cases hbytes : folder.coderInfo with
  | nil =>
    rw [hbytes] at hparse
    cases hparse
  | cons b bytes => exact Nat.succ_pos _

theorem length_le_definitions (h : List.Forall₂ Consistent folders wired) :
    folders.length ≤ (folders.flatMap CompletedFolder.coderInfo).length := by
  induction h with
  | nil => exact le_rfl
  | cons hfolder _ ih =>
    have hpos := coderInfo_ne_nil hfolder
    rw [List.length_cons, List.flatMap_cons, List.length_append]
    omega

theorem count_lt_of_bounded (h : List.Forall₂ Consistent folders wired) (hb : Bounded folders) :
    folders.length < 2 ^ 64 :=
  ((length_le_definitions h).trans_lt hb.definitions).trans (by decide)

/-- A section that fits in memory holds no more values than it has bytes. -/
theorem bounded_of_length (hlen : (writeStreamsInfo folders).length < 2 ^ 64)
    (hpack : ((packedSizes folders).map UInt64.toNat).sum < 2 ^ 64)
    (hdefs : (folders.flatMap CompletedFolder.coderInfo).length < 2 ^ 32)
    (hlimit : fileTotal folders ≤ MAX_SUBSTREAM_DIGESTS) : Bounded folders := by
  have hpacked := length_le_flatMap_encode (packedSizes folders)
  have hcoders := length_le_flatMap_encode (coderSizes folders)
  unfold writeStreamsInfo at hlen
  rw [writePackInfo_eq, writeUnpackInfo_eq] at hlen
  simp only [List.length_append] at hlen
  exact ⟨hpack, hdefs, by omega, by omega, hlimit⟩

/-- The stream section gives the folders back, as long as the positions of their packed streams fit a
`u64` and the offsets of their definitions a `u32`. -/
theorem writeStreamsInfo_reads {backing : Slice} {externalData : List Slice}
    (h : List.Forall₂ Consistent folders wired) (hb : Bounded folders) :
    Reads (Window.within backing) (StreamInfo.parseWithExternal backing externalData)
      (writeStreamsInfo folders) (writtenStreams folders) := by
  have hsizes := Consistent.all_left h fun _ _ hc => hc.fileSizes
  have hcrcs := Consistent.all_left h fun _ _ hc => hc.fileCrcs
  have hcount := count_lt_of_bounded h hb
  have hsubstreams := writeSubstreamsInfo_reads (W := Window.within backing) hsizes hcrcs hb.files
  have heq : writeStreamsInfo folders = writePackInfo folders ++ (writeUnpackInfo folders ++
      (substreamSection folders (fileCrcs folders) ++ [0x00])) := by
    unfold writeStreamsInfo
    rw [writeSubstreamsInfo_eq]
    simp only [List.append_assoc]
  rw [writeSubstreamsInfo_eq] at hsubstreams
  rw [heq]
  exact streamSection_reads (defines_of_consistent h) (coderSizes_length h) hb.packCount hcount
    hb.coderCount hb.definitions hsubstreams

theorem writtenStreams_givesBack (h : List.Forall₂ Consistent folders wired) (hb : Bounded folders) :
    GivesBack folders wired (writtenStreams folders) := by
  have hcrcs := Consistent.all_left h fun _ _ hc => hc.fileCrcs
  have hcount := count_lt_of_bounded h hb
  have htable : (if (fileCrcs folders).any Option.isSome then fileCrcs folders else []) = [] ∨
      (if (fileCrcs folders).any Option.isSome then fileCrcs folders else []).length =
        fileTotal folders := by
    split
    · exact .inr (fileCrcs_length hcrcs)
    · exact .inl rfl
  obtain ⟨start, hstart, hlist⟩ := layouts_written h hb hcount htable
  refine ⟨⟨_, rfl, rfl, rfl⟩, ⟨_, rfl, numFolders_written folders, ?_, rfl, rfl⟩, ?_⟩
  · exact fun i w hw => parseFolder_of_wired hb.definitions h hw
  · exact ⟨start, _, hstart, hlist, layouts_holdFiles hcrcs h [] rfl⟩

/-- The stream section is read back exactly, whatever follows it and wherever it lies in its buffer. -/
theorem writeStreamsInfo_round_trip {backing : Slice} {externalData : List Slice} {a : ℕ}
    {rest : List UInt8} (hconsistent : List.Forall₂ Consistent folders wired)
    (hlimit : fileTotal folders ≤ MAX_SUBSTREAM_DIGESTS)
    (hpack : ((packedSizes folders).map UInt64.toNat).sum < 2 ^ 64)
    (hdefs : (folders.flatMap CompletedFolder.coderInfo).length < 2 ^ 32)
    (hlen : (writeStreamsInfo folders).length < 2 ^ 64)
    (hbacking : (Window.within backing).mem ⟨a, writeStreamsInfo folders ++ rest⟩) :
    ∃ streams, StreamInfo.parseWithExternal backing externalData ⟨a, writeStreamsInfo folders ++ rest⟩ =
        .ok (streams, ⟨a + (writeStreamsInfo folders).length, rest⟩) ∧
      GivesBack folders wired streams := by
  have hb := bounded_of_length hlen hpack hdefs hlimit
  exact ⟨_, writeStreamsInfo_reads hconsistent hb a rest hbacking,
    writtenStreams_givesBack hconsistent hb⟩

end

/-! Where the bounds are needed -/

section
variable {folders : List CompletedFolder} {backing : Slice} {externalData : List Slice}

theorem folderBlocks_left {data r : Slice} {rest : List UInt8} {coders : List Folder}
    (h : Defines folders coders) : ∀ (a : ℕ) (offsets : List UInt32) (total : ℕ) (blocks : FolderBlocks),
      iterate (scanFolderBlock data) folders.length ⟨some offsets, total⟩
        ⟨a, folders.flatMap CompletedFolder.coderInfo ++ rest⟩ = .ok (blocks, r) →
      r.bytes = rest ∧ ∃ offsets', blocks.offsets = some offsets' := by
  induction h with
  | nil =>
    intro a offsets total blocks hrun
    cases hrun
    exact ⟨rfl, offsets, rfl⟩
  | @cons folder c folders coders hfolder _ ih =>
    intro a offsets total blocks hrun
    obtain ⟨acc, t, hblock, hnext⟩ := bind_eq_ok.mp hrun
    obtain ⟨recorded, t₁, hrecord, hscanned⟩ := bind_eq_ok.mp hblock
    obtain ⟨n, t₂, hscan, hadd⟩ := bind_eq_ok.mp hscanned
    obtain ⟨here, t₃, hinput, hrecorded⟩ := bind_eq_ok.mp hrecord
    obtain ⟨offset, t₄, hoffset, hpure⟩ := bind_eq_ok.mp hrecorded
    cases hinput
    cases hpure
    obtain ⟨_, rfl⟩ := ofExcept_eq_ok.mp hoffset
    have hread := scanFolder_reads (W := Window.all) hfolder a
      (folders.flatMap CompletedFolder.coderInfo ++ rest) trivial
    rw [List.flatMap_cons, List.append_assoc] at hscan
    rw [mapError_eq_ok, hread] at hscan
    cases hscan
    split at hadd
    · cases hadd
      exact ih _ _ _ _ hnext
    · cases hadd

theorem definitions_lt {coders : List Folder} {defs : FolderDefinitions} {a : ℕ} {rest : List UInt8}
    {r : Slice} (h : Defines folders coders) (hcount : folders.length < 2 ^ 64)
    (hrun : UnpackInfo.definitions backing externalData
      ⟨a, [0x07] ++ ([0x0B] ++ (varuint folders.length ++ [0x00])) ++
        (folders.flatMap CompletedFolder.coderInfo ++ rest)⟩ = .ok (defs, r)) :
    (folders.flatMap CompletedFolder.coderInfo).length < 2 ^ 32 := by
  have hnum : (UInt64.ofNat folders.length).toNat = folders.length := UInt64.toNat_ofNat_of_lt' hcount
  obtain ⟨declaration, t, hdeclaration, hrun⟩ := bind_eq_ok.mp hrun
  obtain ⟨rfl, rfl⟩ := (parseFolderDeclaration_reads folders.length).det hdeclaration
  obtain ⟨source, t₁, hsource, hrun⟩ := bind_eq_ok.mp hrun
  cases hsource
  obtain ⟨blocks, t₂, hblocks, _⟩ := bind_eq_ok.mp hrun
  obtain ⟨hblocks, _⟩ := ofExcept_eq_ok.mp hblocks
  dsimp only [FolderSource.bytes] at hblocks
  rw [hnum] at hblocks
  set data : Slice := ⟨_, folders.flatMap CompletedFolder.coderInfo ++ rest⟩ with hdata
  have hwalk : ∃ v, walkFolderBlocks data folders.length (some []) data = .ok v := by
    unfold scanFolderBlocks at hblocks
    cases hv : walkFolderBlocks data folders.length (some []) data with
    | ok v => exact ⟨v, rfl⟩
    | error e =>
      rw [hv] at hblocks
      cases hblocks
  obtain ⟨v, hwalk⟩ := hwalk
  obtain ⟨reached, t₃, hiterate, hwalk⟩ := bind_eq_ok.mp hwalk
  obtain ⟨recorded, t₄, hrecord, _⟩ := bind_eq_ok.mp hwalk
  obtain ⟨hleft, offsets, hoffsets⟩ := folderBlocks_left h _ _ _ _ hiterate
  rw [hoffsets] at hrecord
  obtain ⟨here, t₅, hinput, hrecord⟩ := bind_eq_ok.mp hrecord
  obtain ⟨offset, t₆, hoffset, _⟩ := bind_eq_ok.mp hrecord
  cases hinput
  obtain ⟨hoffset, _⟩ := ofExcept_eq_ok.mp hoffset
  have hlen : data.bytes.length - t₃.bytes.length =
      (folders.flatMap CompletedFolder.coderInfo).length := by
    rw [hleft, hdata, List.length_append, Nat.add_sub_cancel]
  rw [hlen, u32TryFrom] at hoffset
  split at hoffset
  · assumption
  · cases hoffset

theorem peekTag_ok (expected : Property) {tag : Property} {a : ℕ} {bytes : List UInt8} {r : Slice}
    (h : peek Property.parse ⟨a, expected.toU8 :: bytes⟩ = .ok (tag, r)) :
    tag = expected ∧ r = ⟨a, expected.toU8 :: bytes⟩ := by
  obtain ⟨rfl, t, htag⟩ := peek_eq_ok.mp h
  obtain ⟨rfl, rfl⟩ := (Property.parse_reads expected).det htag
  exact ⟨rfl, rfl⟩

theorem definitions_lt_of_parse {coders : List Folder} {a : ℕ} {rest : List UInt8}
    {v : StreamInfo × Slice} (h : Defines folders coders) (hcount : folders.length < 2 ^ 64)
    (hpacked : (packedSizes folders).length < 2 ^ 64)
    (hrun : StreamInfo.parseWithExternal backing externalData
      ⟨a, writeStreamsInfo folders ++ rest⟩ = .ok v) :
    (folders.flatMap CompletedFolder.coderInfo).length < 2 ^ 32 := by
  have heq : writeStreamsInfo folders ++ rest = writePackInfo folders ++
      ([0x07] ++ ([0x0B] ++ (varuint folders.length ++ [0x00])) ++
        (folders.flatMap CompletedFolder.coderInfo ++
          (([0x0C] ++ (coderSizes folders).flatMap sevenzipVaruint64Encode) ++
            (writeOptionalCrcs (folderCrcs folders) ++ [0x00]) ++ (writeSubstreamsInfo folders ++
              ([0x00] ++ rest))))) := by
    unfold writeStreamsInfo
    rw [writeUnpackInfo_eq]
    simp only [List.append_assoc]
  rw [heq] at hrun
  obtain ⟨m, hrun⟩ := loopFuel_again hrun
    (packTurn_reads (W := Window.all) StreamInfo.empty hpacked a _ trivial)
  obtain ⟨turn, t, hturn, _⟩ := loopFuel_turn hrun
  obtain ⟨tag, t₁, htag, hsection⟩ := bind_eq_ok.mp hturn
  obtain ⟨rfl, rfl⟩ := peekTag_ok .UnPackInfo htag
  obtain ⟨info, t₃, hinfo, _⟩ := bind_eq_ok.mp hsection
  obtain ⟨defs, t₄, hdefs, _⟩ := bind_eq_ok.mp hinfo
  exact definitions_lt h hcount hdefs

end

/-- What the section should give for every list of folders with consistent lengths. -/
def RoundTrips (folders : List CompletedFolder) (wired : List WiredFolder) : Prop :=
  List.Forall₂ Consistent folders wired → fileTotal folders ≤ MAX_SUBSTREAM_DIGESTS →
    ∃ streams, StreamInfo.parse ⟨0, writeStreamsInfo folders⟩ ⟨0, writeStreamsInfo folders⟩ =
        .ok (streams, ⟨(writeStreamsInfo folders).length, []⟩) ∧ GivesBack folders wired streams

theorem copyId_length : ([0] : List UInt8).length ≤ 15 := Nat.le_of_ble_eq_true rfl

def copyFolder : Folder :=
  { coders := [⟨⟨[0], copyId_length⟩, 1, 1, none⟩], bindPairs := [], packedIndices := [] }

def copyGraph : FolderGraph :=
  { executionOrder := [0], packedInputs := [0], finalOutput := 0, inputOwners := [0],
    outputOwners := [0], inputSources := [none] }

theorem copyFolder_graph : copyFolder.graph = .ok copyGraph := by decide +kernel

def copyWired : WiredFolder := { folder := copyFolder, graph := copyGraph, wired := copyFolder_graph }

def emptyCopy (packSize : UInt64) : CompletedFolder :=
  { fileIndices := [], packSizes := [packSize], coderInfo := [1, 1, 0], coderUnpackSizes := [0],
    folderCrc := none, fileSizes := [], fileCrcs := [] }

theorem copyCoder_parse : Folder.parse ⟨0, [1, 1, 0]⟩ = .ok (copyWired.folder, ⟨3, []⟩) := by
  decide +kernel

theorem emptyCopy_consistent (packSize : UInt64) : Consistent (emptyCopy packSize) copyWired :=
  ⟨copyCoder_parse, rfl, rfl, rfl, rfl, 0, rfl, rfl⟩

def twoFiles : CompletedFolder :=
  { fileIndices := [0, 1], packSizes := [7], coderInfo := [1, 1, 0], coderUnpackSizes := [7],
    folderCrc := none, fileSizes := [3, 4], fileCrcs := [some 0x11223344, none] }

theorem writeStreamsInfo_round_trip_copied :
    List.Forall₂ Consistent [twoFiles, emptyCopy 0] [copyWired, copyWired] ∧
      ∃ streams, StreamInfo.parseWithExternal ⟨0, writeStreamsInfo [twoFiles, emptyCopy 0] ++ []⟩ []
          ⟨0, writeStreamsInfo [twoFiles, emptyCopy 0] ++ []⟩ =
        .ok (streams, ⟨0 + (writeStreamsInfo [twoFiles, emptyCopy 0]).length, []⟩) ∧
      GivesBack [twoFiles, emptyCopy 0] [copyWired, copyWired] streams := by
  have hconsistent : List.Forall₂ Consistent [twoFiles, emptyCopy 0] [copyWired, copyWired] :=
    .cons ⟨copyCoder_parse, rfl, rfl, rfl, rfl, 7, rfl, rfl⟩
      (.cons (emptyCopy_consistent 0) .nil)
  exact ⟨hconsistent, writeStreamsInfo_round_trip hconsistent (by decide) (by decide) (by decide)
    (by decide +kernel) (Window.within_self _)⟩

/-- Packed streams past the last position a `u64` can hold: the section is read, but the second folder
cannot be laid out. -/
def farFolders : List CompletedFolder :=
  [emptyCopy 0x8000000000000000, emptyCopy 0x8000000000000000]

def laidOut (parsed : Except NomErr (StreamInfo × Slice)) : Bool :=
  match parsed with
  | .error _ => false
  | .ok (streams, _) => (FolderLayouts.forStreams streams >>= FolderLayouts.toList).isOk

theorem farFolders_not_roundTrips : ¬RoundTrips farFolders [copyWired, copyWired] := by
  intro h
  have hconsistent : List.Forall₂ Consistent farFolders [copyWired, copyWired] :=
    .cons (emptyCopy_consistent _) (.cons (emptyCopy_consistent _) .nil)
  obtain ⟨streams, hparse, hback⟩ := h hconsistent (by decide)
  obtain ⟨start, layouts, hstart, hlist, _⟩ := hback.laidOut
  have hfalse : laidOut (StreamInfo.parse ⟨0, writeStreamsInfo farFolders⟩
      ⟨0, writeStreamsInfo farFolders⟩) = false := by decide +kernel
  rw [hparse] at hfalse
  change (FolderLayouts.forStreams streams >>= FolderLayouts.toList).isOk = false at hfalse
  rw [hstart, ok_bind, hlist] at hfalse
  cases hfalse

theorem copies_not_roundTrips {n : ℕ} (hn : 2 ^ 32 ≤ n * 3) (hlt : n < 2 ^ 64) :
    ¬RoundTrips (List.replicate n (emptyCopy 0)) (List.replicate n copyWired) := by
  intro h
  have hconsistent : List.Forall₂ Consistent (List.replicate n (emptyCopy 0))
      (List.replicate n copyWired) :=
    List.forall₂_iff_get.mpr ⟨by simp, fun i _ _ => by simpa using emptyCopy_consistent 0⟩
  have hfiles : fileTotal (List.replicate n (emptyCopy 0)) = 0 := by
    simp [fileTotal, emptyCopy]
  have hpacked : (packedSizes (List.replicate n (emptyCopy 0))).length = n := by
    simp [packedSizes, emptyCopy]
  have hdefs : ((List.replicate n (emptyCopy 0)).flatMap CompletedFolder.coderInfo).length = n * 3 := by
    simp [emptyCopy]
  obtain ⟨streams, hparse, _⟩ := h hconsistent (by rw [hfiles]; exact Nat.zero_le _)
  rw [← List.append_nil (writeStreamsInfo (List.replicate n (emptyCopy 0)))] at hparse
  have hbound := definitions_lt_of_parse (defines_of_consistent hconsistent)
    (by rwa [List.length_replicate]) (by rwa [hpacked]) hparse
  rw [hdefs] at hbound
  omega

/-- Both bounds are needed: positions past a `u64`, and definitions past a `u32`. -/
theorem folders_not_roundTrips :
    ¬RoundTrips farFolders [copyWired, copyWired] ∧
      ¬RoundTrips (List.replicate (2 ^ 31) (emptyCopy 0)) (List.replicate (2 ^ 31) copyWired) :=
  ⟨farFolders_not_roundTrips, copies_not_roundTrips (by decide) (by decide)⟩

end R7z
