import R7z.PlannedFolders
import R7z.Update.PlanOutcome

/-! What an update says of the entries it keeps: times, attributes and start positions, read back from the header
that it wrote. -/

namespace R7z

open Wire Effect Effect.Machine

namespace Write

/-! Times through the two conversions -/

/-- The Unix epoch in 100 ns ticks since 1601. -/
def UNIX_EPOCH_FILETIME : UInt64 := 116444736000000000

theorem filetimeToSystemTime_eq (filetime : UInt64) : filetimeToSystemTime filetime =
    if UNIX_EPOCH_FILETIME ≤ filetime then
      some ⟨((filetime.toNat / 10000000 - 11644473600) * 1000000000 + filetime.toNat % 10000000 * 100 : ℕ)⟩
    else none := by
  have hepoch : UNIX_EPOCH_FILETIME ≤ filetime ↔ ¬filetime.toNat / 10000000 < 11644473600 := by
    rw [UInt64.le_iff_toNat_le]
    change 116444736000000000 ≤ filetime.toNat ↔ _
    omega
  unfold filetimeToSystemTime
  by_cases h : UNIX_EPOCH_FILETIME ≤ filetime
  · rw [if_pos h]
    exact if_neg (hepoch.mp h)
  · rw [if_neg h]
    exact if_pos (not_not.mp fun hlate => h (hepoch.mpr hlate))

theorem systemTimeToFiletime_ticks {filetime : UInt64} (h : UNIX_EPOCH_FILETIME ≤ filetime) :
    systemTimeToFiletime
      ⟨((filetime.toNat / 10000000 - 11644473600) * 1000000000 + filetime.toNat % 10000000 * 100 : ℕ)⟩ = filetime := by
  have hepoch : 116444736000000000 ≤ filetime.toNat := UInt64.le_iff_toNat_le.mp h
  have hlt := filetime.toNat_lt
  unfold systemTimeToFiletime
  rw [if_neg (by dsimp only; omega)]
  dsimp only
  rw [Int.toNat_natCast]
  -- the seconds and the ticks within the second come apart again
  have hsecs : ((filetime.toNat / 10000000 - 11644473600) * 1000000000 + filetime.toNat % 10000000 * 100) / 1000000000 +
      11644473600 = filetime.toNat / 10000000 := by omega
  have hticks : ((filetime.toNat / 10000000 - 11644473600) * 1000000000 + filetime.toNat % 10000000 * 100) % 1000000000 /
      100 = filetime.toNat % 10000000 := by omega
  rw [hsecs, hticks]
  have hwhole : min (min (min (filetime.toNat / 10000000) (2 ^ 64 - 1) * 10000000) (2 ^ 64 - 1) +
      filetime.toNat % 10000000) (2 ^ 64 - 1) = filetime.toNat := by omega
  rw [hwhole, UInt64.ofNat_toNat]

theorem filetime_through (time : Option UInt64) : (time.bind filetimeToSystemTime).map systemTimeToFiletime =
    time.filter (fun filetime => decide (UNIX_EPOCH_FILETIME ≤ filetime)) := by
  cases time with
  | none => rfl
  | some filetime =>
    rw [Option.bind_some, filetimeToSystemTime_eq, Option.filter_some]
    by_cases h : UNIX_EPOCH_FILETIME ≤ filetime
    · rw [if_pos h, Option.map_some, systemTimeToFiletime_ticks h, if_pos (decide_eq_true h)]
    · rw [if_neg h, Option.map_none, if_neg (by simpa using h)]

/-! Metadata in the file section -/

structure SameMetadata (source : FilesInfo) (i : ℕ) (reopened : FilesInfo) (j : ℕ) : Prop where
  ctime : (reopened.ctimes[j]?).join = (source.ctimes[i]?).join
  atime : (reopened.atimes[j]?).join = (source.atimes[i]?).join
  mtime : (reopened.mtimes[j]?).join = (source.mtimes[i]?).join
  attributes : (reopened.attributes[j]?).join = (source.attributes[i]?).join
  startPos : (reopened.startPositions[j]?).join = (source.startPositions[i]?).join

def storedTimes (files : FilesInfo) (i : ℕ) : List UInt64 :=
  [(files.ctimes[i]?).join, (files.atimes[i]?).join, (files.mtimes[i]?).join].filterMap id

def SinceEpoch (files : FilesInfo) (i : ℕ) : Prop := ∀ time ∈ storedTimes files i, UNIX_EPOCH_FILETIME ≤ time

theorem filter_eq_self_iff {time : Option UInt64} :
    time.filter (fun filetime => decide (UNIX_EPOCH_FILETIME ≤ filetime)) = time ↔
      ∀ filetime, time = some filetime → UNIX_EPOCH_FILETIME ≤ filetime := by
  cases time with
  | none => simp
  | some filetime => simp [Option.filter_some]

theorem sameMetadata_iff {source reopened : FilesInfo} {i j : ℕ} {row : WriteEntry} (h : ListedAs reopened j row)
    (hmetadata : row.metadata = entryMetaFromArchive source i) :
    SameMetadata source i reopened j ↔ SinceEpoch source i := by
  obtain ⟨-, hctime, hatime, hmtime, hstartPos, hattributes, -⟩ := h
  rw [hmetadata] at hctime hatime hmtime hstartPos hattributes
  replace hctime := hctime.trans (filetime_through _)
  replace hatime := hatime.trans (filetime_through _)
  replace hmtime := hmtime.trans (filetime_through _)
  have hsince : SinceEpoch source i ↔
      (∀ filetime, (source.ctimes[i]?).join = some filetime → UNIX_EPOCH_FILETIME ≤ filetime) ∧
      (∀ filetime, (source.atimes[i]?).join = some filetime → UNIX_EPOCH_FILETIME ≤ filetime) ∧
      ∀ filetime, (source.mtimes[i]?).join = some filetime → UNIX_EPOCH_FILETIME ≤ filetime := by
    unfold SinceEpoch storedTimes
    simp only [List.mem_filterMap, List.mem_cons, List.not_mem_nil, or_false, id]
    constructor
    · intro hall
      exact ⟨fun t ht => hall t ⟨_, .inl rfl, ht⟩, fun t ht => hall t ⟨_, .inr (.inl rfl), ht⟩,
        fun t ht => hall t ⟨_, .inr (.inr rfl), ht⟩⟩
    · rintro ⟨hc, ha, hm⟩ t ⟨_, rfl | rfl | rfl, ht⟩
      · exact hc t ht
      · exact ha t ht
      · exact hm t ht
  rw [hsince, ← filter_eq_self_iff, ← filter_eq_self_iff, ← filter_eq_self_iff]
  constructor
  · intro hsame
    exact ⟨hctime.symm.trans hsame.ctime, hatime.symm.trans hsame.atime, hmtime.symm.trans hsame.mtime⟩
  · rintro ⟨hc, ha, hm⟩
    exact ⟨hctime.trans hc, hatime.trans ha, hmtime.trans hm, hattributes, hstartPos⟩

/-! The rows that are kept -/

/-- The entries of the source that a plan keeps, in order: none where there is no file section that can be read. -/
def keptEntries (archive : Archive) (shouldDrop : Entry → Bool) : List ℕ :=
  match archive.header.filesInfo with
  | none => []
  | some _ => (List.range archive.header.numFiles.toNat).filter (retains archive.entries shouldDrop)

section
variable {archive : Archive} {crc32 : List UInt8 → UInt32} {extract : ℕ → Except R7zError (List UInt8)}
  {shouldDrop : Entry → Bool} {appendEntries : List PendingEntry} {entries : List PreservedArchiveEntry}
  {rawFolders : List RawFolderBlock} {listing : ArchiveListing}

theorem keptEntries_of_listing {files : FilesInfo} (hfiles : archive.header.filesInfo = some files)
    (hlisting : archive.header.listing (some archive.source.bytes.length) = .ok listing) :
    keptEntries archive shouldDrop =
      (listing.entries.filter fun row => retains archive.entries shouldDrop row.index).map ArchiveListingEntry.index := by
  unfold keptEntries
  rw [hfiles]
  dsimp only
  rw [← listing_length hlisting, ← listing_indices hlisting, List.filter_map]
  rfl

/-- What can be listed has a file section that can be read, or none at all. -/
theorem no_fileSection (hlisting : archive.header.listing (some archive.source.bytes.length) = .ok listing)
    (hnone : archive.header.filesInfo = none) : archive.header.filesInfoRange = none := by
  obtain ⟨listed, hlisted, -, -⟩ := Header.listing_spec hlisting
  obtain ⟨streams, -, hlisted⟩ := except_bind_eq_ok.mp hlisted
  obtain ⟨total, -, hlisted⟩ := except_bind_eq_ok.mp hlisted
  obtain ⟨methods, -, hlisted⟩ := except_bind_eq_ok.mp hlisted
  obtain ⟨files, hfiles, -⟩ := except_bind_eq_ok.mp hlisted
  rw [Header.filesInfo, hfiles] at hnone
  cases hnone
  unfold Header.tryFilesInfo Header.parseSection at hfiles
  cases hrange : archive.header.filesInfoRange with
  | none => rfl
  | some range =>
    rw [hrange] at hfiles
    dsimp only at hfiles
    split at hfiles
    · cases hfiles
    · split at hfiles
      · split at hfiles <;> cases hfiles
      · cases hfiles

theorem unknown_name (index : ℕ) : '\x00' ∉ ("unknown-" ++ toString index : String).toList := by
  rw [String.toList_append, List.mem_append, not_or]
  refine ⟨by decide, fun h => ?_⟩
  have hdigit := Nat.isDigit_of_mem_toDigits (b := 10) (n := index) (by decide) (by decide) (c := '\x00') (by simpa using h)
  exact absurd hdigit (by decide)

/-- A row without a raw name has a name that stands for a missing one. -/
theorem KeptRow.name_valid {files : FilesInfo} {row : ArchiveListingEntry} {action : RetainedEntryAction}
    {kept : PreservedArchiveEntry} (h : KeptRow files archive.entries rawFolders extract row action kept) :
    kept.rawName = none → '\x00' ∉ kept.name.toList := by
  intro hraw
  obtain ⟨entry, hentry, hname, hrawName⟩ := h.entry
  obtain ⟨-, hentries⟩ := NamedEntries.collect_spec (NamedEntries.new_inStep archive.header.filesInfo
    archive.header.numFiles.toNat) rfl
  obtain ⟨-, hslice⟩ := hentries row.index entry hentry
  cases hentryName : entry.name with
  | some slice =>
    rw [hentryName] at hslice
    obtain ⟨files', -, hslice⟩ := Option.bind_eq_some_iff.mp hslice.symm
    have hvalid : UnitsWithoutNul slice := nameSlicesFrom_valid (Option.join_eq_some_iff.mp hslice)
    rw [hrawName, hentryName, Option.bind_some, RawEntryName.fromUtf16le, dif_pos hvalid] at hraw
    cases hraw
  | none =>
    rw [hname, Entry.display, hentryName]
    exact unknown_name entry.index

/-- The rows of a plan: first those of the entries that are kept, with what the source says of each. -/
theorem planned_entries (hplan : preservedRewriteEntries archive crc32 extract shouldDrop appendEntries =
      .ok (entries, rawFolders)) :
    ∃ kept, entries = kept ++ appendEntries.map PendingEntry.toPreserved ∧
      (∀ entry ∈ kept, entry.rawName = none → '\x00' ∉ entry.name.toList) ∧
      kept.length = (keptEntries archive shouldDrop).length ∧
      ∀ source, archive.header.filesInfo = some source →
        kept.map PreservedArchiveEntry.metadata =
          (keptEntries archive shouldDrop).map (entryMetaFromArchive source) := by
  cases hfiles : archive.header.filesInfo with
  | none =>
    unfold preservedRewriteEntries at hplan
    rw [hfiles] at hplan
    cases hplan
    have hnone : keptEntries archive shouldDrop = [] := by
      unfold keptEntries
      rw [hfiles]
    refine ⟨[], rfl, fun _ h => absurd h List.not_mem_nil, ?_, fun _ h => by cases h⟩
    rw [hnone]
    rfl
  | some source =>
    obtain ⟨listing, hlisting⟩ := listing_of_plan hfiles hplan
    obtain ⟨-, kept, hentries, hkept⟩ := preservedRewriteEntries_spec hfiles hlisting hplan
    have hindices := @keptEntries_of_listing _ shouldDrop _ _ hfiles hlisting
    refine ⟨kept, hentries, fun entry hentry => ?_, ?_, ?_⟩
    · obtain ⟨row, -, hrow⟩ := exists_of_planned hkept hentry
      exact hrow.name_valid
    · rw [hindices, List.length_map, hkept.length_eq]
    · rintro _ ⟨⟩
      rw [hindices, List.map_map]
      generalize listing.entries.filter (fun row => retains archive.entries shouldDrop row.index) = rows at hkept
      clear hindices hentries
      induction hkept with
      | nil => rfl
      | cons hrow _ ih => rw [List.map_cons, List.map_cons, ih, hrow.metadata, Function.comp_apply]

/-! The header of an update -/

theorem stages_metadata {first : WriteFolderId} {staged : List StagedEntry}
    (h : List.Forall₂ (Stages rawFolders first) entries staged) :
    (staged.map StagedEntry.intoWriteEntry).map WriteEntry.metadata = entries.map PreservedArchiveEntry.metadata := by
  induction h with
  | nil => rfl
  | cons hstages _ ih =>
    rw [List.map_cons, List.map_cons, List.map_cons, ih, ← hstages.metadata]
    rfl

theorem stages_valid {first : WriteFolderId} {staged : List StagedEntry}
    (h : List.Forall₂ (Stages rawFolders first) entries staged)
    (hvalid : ∀ entry ∈ entries, entry.rawName = none → '\x00' ∉ entry.name.toList) :
    ∀ row ∈ staged.map StagedEntry.intoWriteEntry, UnitsWithoutNul (nameBytes row) := by
  intro row hrow
  obtain ⟨planned, hplanned, rfl⟩ := List.mem_map.mp hrow
  obtain ⟨entry, hentry, hstages⟩ := partner_of_mem h.flip hplanned
  refine nameBytes_valid fun hraw hnul => ?_
  have hname := hvalid entry hentry (hstages.rawName.symm.trans hraw)
  rw [← hstages.name] at hname
  exact hname ((encodeUtf16_zero _).mp hnul)

variable {outside : Outside} {options : Except R7zError PreparedArchiveOptions} {w w' : ArchiveWriter}

theorem update_rows (hnames : ∀ entry ∈ appendEntries, '\x00' ∉ entry.name.toList)
    (hplan : preservedRewriteEntries archive crc32 extract shouldDrop appendEntries = .ok (entries, rawFolders))
    (hupdate : writeArchiveUpdate outside archive options entries rawFolders w = (.ok (), w')) :
    ∃ rows folders, (updatedFolders outside options entries rawFolders w).1 = .ok folders ∧
      WroteHeader outside (buildHeader rows folders) w' ∧
      (archive.header.filesInfo = none → archive.header.filesInfoRange = none) ∧
      (∀ row ∈ rows, UnitsWithoutNul (nameBytes row)) ∧
      rows.map WriteEntry.metadata = entries.map PreservedArchiveEntry.metadata := by
  obtain ⟨_, w₁, hvalidate, hwrite⟩ := bind_eq_ok.mp hupdate
  obtain ⟨hvalid, rfl⟩ := Prod.mk.inj hvalidate
  obtain ⟨listing, hlisting, -⟩ := validateRawFolderUpdate_iff.mp hvalid
  obtain ⟨prepared, staged, folders, -, hstaged, hfolders, hwrote, -⟩ := update_within hwrite
  obtain ⟨hstages, -, -⟩ := stagePreservedEntries_spec hstaged
  obtain ⟨kept, rfl, hkept, -, -⟩ := planned_entries hplan
  refine ⟨_, folders, hfolders, hwrote, no_fileSection hlisting, stages_valid hstages fun entry hentry hraw => ?_,
    stages_metadata hstages⟩
  rcases List.mem_append.mp hentry with hentry | hentry
  · exact hkept entry hentry hraw
  · obtain ⟨pending, hpending, rfl⟩ := List.mem_map.mp hentry
    exact hnames pending hpending

theorem update_reopens (hnames : ∀ entry ∈ appendEntries, '\x00' ∉ entry.name.toList)
    (hplan : preservedRewriteEntries archive crc32 extract shouldDrop appendEntries = .ok (entries, rawFolders))
    (hupdate : writeArchiveUpdate outside archive options entries rawFolders w = (.ok (), w')) :
    ∃ rows folders, (updatedFolders outside options entries rawFolders w).1 = .ok folders ∧
      WroteHeader outside (buildHeader rows folders) w' ∧
      (archive.header.filesInfo = none → archive.header.filesInfoRange = none) ∧
      ((buildHeader rows folders).length < 2 ^ 63 → ∃ reopened rest,
        FilesInfo.parse ⟨0, buildHeader rows folders⟩
          ⟨(headerFront folders).length, (buildHeader rows folders).drop (headerFront folders).length⟩ =
            .ok (reopened, rest) ∧
        reopened.numFiles.toNat = (keptEntries archive shouldDrop).length + appendEntries.length ∧
        ∀ source, archive.header.filesInfo = some source → ∀ j i, (keptEntries archive shouldDrop)[j]? = some i →
          ∃ row, ListedAs reopened j row ∧ row.metadata = entryMetaFromArchive source i) := by
  obtain ⟨rows, folders, hfolders, hwrote, hsection, hvalid, hmetadata⟩ := update_rows hnames hplan hupdate
  obtain ⟨kept, rfl, -, hlength, hkept⟩ := planned_entries hplan
  refine ⟨rows, folders, hfolders, hwrote, hsection, fun hlen => ?_⟩
  obtain ⟨rest, hparse, hcount, hlisted⟩ := buildHeader_fileSection hvalid (lt_trans hlen (by decide))
  refine ⟨_, rest, hparse, ?_, fun source hsource j i hi => ?_⟩
  · have hrows := congrArg List.length hmetadata
    rw [List.length_map, List.length_map, List.length_append, List.length_map] at hrows
    rw [hcount, hrows, hlength]
  · have hj : j < kept.length := hlength ▸ (List.getElem?_eq_some_iff.mp hi).1
    have hrow : (rows.map WriteEntry.metadata)[j]? = some (entryMetaFromArchive source i) := by
      rw [hmetadata, List.map_append, List.getElem?_append_left (by rwa [List.length_map]), hkept source hsource,
        List.getElem?_map, hi]
      rfl
    rw [List.getElem?_map] at hrow
    obtain ⟨row, hrow, hsame⟩ := Option.map_eq_some_iff.mp hrow
    exact ⟨row, hlisted j row hrow, hsame⟩

/-- Every entry that an update keeps is reported with the metadata it had, exactly when none of its times is
before the Unix epoch. -/
theorem update_keeps_metadata (hnames : ∀ entry ∈ appendEntries, '\x00' ∉ entry.name.toList)
    (hplan : preservedRewriteEntries archive crc32 extract shouldDrop appendEntries = .ok (entries, rawFolders))
    (hupdate : writeArchiveUpdate outside archive options entries rawFolders w = (.ok (), w')) :
    ∃ rows folders, (updatedFolders outside options entries rawFolders w).1 = .ok folders ∧
      WroteHeader outside (buildHeader rows folders) w' ∧
      (archive.header.filesInfo = none → archive.header.filesInfoRange = none) ∧
      ((buildHeader rows folders).length < 2 ^ 63 → ∃ reopened rest,
        FilesInfo.parse ⟨0, buildHeader rows folders⟩
          ⟨(headerFront folders).length, (buildHeader rows folders).drop (headerFront folders).length⟩ =
            .ok (reopened, rest) ∧
        reopened.numFiles.toNat = (keptEntries archive shouldDrop).length + appendEntries.length ∧
        ∀ source, archive.header.filesInfo = some source → ∀ j i, (keptEntries archive shouldDrop)[j]? = some i →
          (SameMetadata source i reopened j ↔ SinceEpoch source i)) := by
  obtain ⟨rows, folders, hfolders, hwrote, hsection, hreopens⟩ := update_reopens hnames hplan hupdate
  refine ⟨rows, folders, hfolders, hwrote, hsection, fun hlen => ?_⟩
  obtain ⟨reopened, rest, hparse, hcount, hrows⟩ := hreopens hlen
  refine ⟨reopened, rest, hparse, hcount, fun source hsource j i hi => ?_⟩
  obtain ⟨row, hlisted, hmetadata⟩ := hrows source hsource j i hi
  exact sameMetadata_iff hlisted hmetadata

/-- One empty file with a modification time. -/
def datedFile (mtime : ℕ) : Archive :=
  { identity := 1
    header :=
      { data := ⟨0, [1, 5, 1, 14, 1, 128, 15, 1, 128, 17, 5, 0, 97, 0, 0, 0, 20, 10, 1, 0] ++ toLeBytes 8 mtime ++
          [0, 0]⟩
        streamsInfoRange := none, filesInfoRange := some ⟨1, 29⟩, additionalStreamsRange := none
        externalFolderData := [], numFiles := 1 }
    source := { bytes := List.replicate 32 0, fails := fun _ _ => none }
    baseOffset := 0 }

/-- The plan of an update that keeps every entry and adds an empty file, and what the writer is after it. -/
def plainUpdate (archive : Archive) :
    Option (List PreservedArchiveEntry × List RawFolderBlock × ArchiveWriter) :=
  match preservedRewriteEntries archive (fun _ => 0) (fun _ => .error .io) (fun _ => false)
      [{ name := "new", kind := .EmptyFile, metadata := EntryMeta.default }] with
  | .error _ => none
  | .ok (entries, rawFolders) =>
    match writeArchiveUpdate plainOutside archive (.ok plainPrepared) entries rawFolders
        (ArchiveWriter.new ⟨[], 0⟩ plainPrepared) with
    | (.ok (), w') => some (entries, rawFolders, w')
    | (.error _, _) => none

theorem plainUpdate_spec {archive : Archive} {entries : List PreservedArchiveEntry} {rawFolders : List RawFolderBlock}
    {w' : ArchiveWriter} (h : plainUpdate archive = some (entries, rawFolders, w')) :
    preservedRewriteEntries archive (fun _ => 0) (fun _ => .error .io) (fun _ => false)
        [{ name := "new", kind := .EmptyFile, metadata := EntryMeta.default }] = .ok (entries, rawFolders) ∧
      writeArchiveUpdate plainOutside archive (.ok plainPrepared) entries rawFolders
        (ArchiveWriter.new ⟨[], 0⟩ plainPrepared) = (.ok (), w') := by
  unfold plainUpdate at h
  split at h
  · cases h
  · next plan raws hplan =>
    split at h
    · next hrun =>
      cases h
      exact ⟨hplan, hrun⟩
    · cases h

/-- A time of the year 2022 is kept. -/
theorem update_keeps_metadata_dated : ∃ entries rawFolders w' rows folders source reopened rest,
    preservedRewriteEntries (datedFile 133000000000000000) (fun _ => 0) (fun _ => .error .io) (fun _ => false)
      [{ name := "new", kind := .EmptyFile, metadata := EntryMeta.default }] = .ok (entries, rawFolders) ∧
    (updatedFolders plainOutside (.ok plainPrepared) entries rawFolders
      (ArchiveWriter.new ⟨[], 0⟩ plainPrepared)).1 = .ok folders ∧
    WroteHeader plainOutside (buildHeader rows folders) w' ∧
    ((datedFile 133000000000000000).header.filesInfo = none →
      (datedFile 133000000000000000).header.filesInfoRange = none) ∧
    FilesInfo.parse ⟨0, buildHeader rows folders⟩
      ⟨(headerFront folders).length, (buildHeader rows folders).drop (headerFront folders).length⟩ =
        .ok (reopened, rest) ∧
    reopened.numFiles.toNat = 2 ∧ (datedFile 133000000000000000).header.filesInfo = some source ∧
    storedTimes source 0 = [133000000000000000] ∧ SameMetadata source 0 reopened 0 := by
  have hkept : keptEntries (datedFile 133000000000000000) (fun _ => false) = [0] := by decide +kernel
  have htimes : (datedFile 133000000000000000).header.filesInfo.map (fun files => storedTimes files 0) =
      some [133000000000000000] := by decide +kernel
  obtain ⟨source, hsource, htimes⟩ := Option.map_eq_some_iff.mp htimes
  have hupdated : (plainUpdate (datedFile 133000000000000000)).any (fun (_, _, w') =>
      decide (w'.output.content.length < 2 ^ 63)) = true := by
    decide +kernel
  obtain ⟨⟨entries, rawFolders, w'⟩, hupdated, hlength⟩ := (Option.any_eq_true _ _).mp hupdated
  have hlength := of_decide_eq_true hlength
  obtain ⟨hplan, hupdate⟩ := plainUpdate_spec hupdated
  obtain ⟨rows, folders, hfolders, hwrote, hsection, hreopens⟩ := update_keeps_metadata (by decide) hplan hupdate
  obtain ⟨reopened, rest, hparse, hcount, hsame⟩ := hreopens ((length_le_of_wrote hwrote).trans_lt hlength)
  rw [hkept] at hcount hsame
  refine ⟨entries, rawFolders, w', rows, folders, source, reopened, rest, hplan, hfolders, hwrote, hsection, hparse,
    hcount, hsource, htimes, (hsame source hsource 0 0 rfl).mpr ?_⟩
  intro time htime
  rw [htimes, List.mem_singleton] at htime
  rw [htime]
  decide

/-- The last second before the Unix epoch is lost. -/
theorem update_loses_time : ∃ entries rawFolders w' rows folders source reopened rest,
    preservedRewriteEntries (datedFile 116444735990000000) (fun _ => 0) (fun _ => .error .io) (fun _ => false)
      [{ name := "new", kind := .EmptyFile, metadata := EntryMeta.default }] = .ok (entries, rawFolders) ∧
    writeArchiveUpdate plainOutside (datedFile 116444735990000000) (.ok plainPrepared) entries rawFolders
      (ArchiveWriter.new ⟨[], 0⟩ plainPrepared) = (.ok (), w') ∧
    WroteHeader plainOutside (buildHeader rows folders) w' ∧
    FilesInfo.parse ⟨0, buildHeader rows folders⟩
      ⟨(headerFront folders).length, (buildHeader rows folders).drop (headerFront folders).length⟩ =
        .ok (reopened, rest) ∧
    (datedFile 116444735990000000).header.filesInfo = some source ∧
    (source.mtimes[0]?).join = some 116444735990000000 ∧ (reopened.mtimes[0]?).join = none := by
  have hkept : keptEntries (datedFile 116444735990000000) (fun _ => false) = [0] := by decide +kernel
  have htime : (datedFile 116444735990000000).header.filesInfo.map (fun files => (files.mtimes[0]?).join) =
      some (some 116444735990000000) := by decide +kernel
  obtain ⟨source, hsource, htime⟩ := Option.map_eq_some_iff.mp htime
  have hupdated : (plainUpdate (datedFile 116444735990000000)).any (fun (_, _, w') =>
      decide (w'.output.content.length < 2 ^ 63)) = true := by
    decide +kernel
  obtain ⟨⟨entries, rawFolders, w'⟩, hupdated, hlength⟩ := (Option.any_eq_true _ _).mp hupdated
  have hlength := of_decide_eq_true hlength
  obtain ⟨hplan, hupdate⟩ := plainUpdate_spec hupdated
  obtain ⟨rows, folders, -, hwrote, -, hreopens⟩ := update_reopens (by decide) hplan hupdate
  obtain ⟨reopened, rest, hparse, -, hrows⟩ := hreopens ((length_le_of_wrote hwrote).trans_lt hlength)
  obtain ⟨row, hlisted, hmetadata⟩ := hrows source hsource 0 0 (by rw [hkept]; rfl)
  refine ⟨entries, rawFolders, w', rows, folders, source, reopened, rest, hplan, hupdate, hwrote, hparse, hsource,
    htime, ?_⟩
  rw [hlisted.mtime, hmetadata, entryMetaFromArchive, filetime_through, htime]
  decide

end

end Write

end R7z
