import R7z.Update.Acceptance
import R7z.Update.PlannedRows

/-! An update that is planned from an archive: every entry that is kept is in the update once, with its folder or
decoded, and what is copied fits the source. -/

namespace R7z

open Wire Effect Effect.Machine

/-! The entries of an archive -/

namespace NamedEntries

theorem collect_spec : ∀ {turns : ℕ} {entries : NamedEntries}, entries.InStep → entries.len = turns →
    (entries.collect turns).length = turns ∧
      ∀ k entry, (entries.collect turns)[k]? = some entry → entry.index = entries.next + k ∧
        entry.name = entries.files.bind fun files => (files.nameSlices[entries.next + k]?).join
  | 0, _, _, _ => ⟨rfl, fun _ _ h => by cases h⟩
  | turns + 1, entries, hstep, hlen => by
    have hpos : 0 < entries.len := hlen ▸ Nat.succ_pos _
    have hnext : entries.nextEntry = _ := nth_some hpos
    have hname := hstep.nthName hpos
    have hbehind : entries.nextEntry.2.InStep := hstep.nth 0
    have hturns : entries.nextEntry.2.len = turns := by
      rw [hnext]
      unfold Entries.len at hlen ⊢
      dsimp only
      omega
    obtain ⟨hlength, hrest⟩ := collect_spec hbehind hturns
    unfold collect
    rw [hnext] at hlength hrest ⊢
    dsimp only at hlength hrest ⊢
    refine ⟨by rw [List.length_cons, hlength], fun k entry hentry => ?_⟩
    cases k with
    | zero =>
      cases hentry
      exact ⟨rfl, hname⟩
    | succ k =>
      obtain ⟨hindex, hnames⟩ := hrest k entry hentry
      have hplace : entries.next + 0 + 1 + k = entries.next + (k + 1) := by omega
      exact ⟨hindex.trans hplace, by rw [hnames, hplace]⟩

end NamedEntries

theorem Archive.entries_length (archive : Archive) : archive.entries.length = archive.header.numFiles.toNat :=
  (NamedEntries.collect_spec (NamedEntries.new_inStep _ _) rfl).1

theorem listing_length {header : Header} {physicalSize : Option ℕ} {listing : ArchiveListing}
    (h : header.listing physicalSize = .ok listing) : listing.entries.length = header.numFiles.toNat := by
  obtain ⟨listed, -, hrows, hnew⟩ := Header.listing_spec h
  obtain ⟨folders, entries, -, hmaps, heq⟩ := ListedArchive.rows_spec hnew hrows
  obtain ⟨-, -, -, hentries, -⟩ := FileStreams.new_eq_ok hnew
  have hlength := congrArg List.length hmaps.indices
  rw [List.length_map, List.length_range, FileStreams.len, hentries] at hlength
  rw [heq, List.length_map, hlength]
  rfl

namespace Write

/-! The rows of a plan -/

inductive KeptStream (rawFolders : List RawFolderBlock) (extract : ℕ → Except R7zError (List UInt8))
    (row : ArchiveListingEntry) : RetainedEntryAction → PreservedEntryStream → Prop where
  | none : KeptStream rawFolders extract row .NoStream .None
  | raw {folder size : ℕ} {raw : RawFolderBlock} (hraw : rawById rawFolders folder = some raw)
    (hsize : row.size = some size) :
    KeptStream rawFolders extract row (.CopyRaw folder) (.Raw raw.handle row.index size row.crc)
  | data {data : List UInt8} (hdata : extract row.index = .ok data) :
    KeptStream rawFolders extract row .Decode (.Data data)

structure KeptRow (files : FilesInfo) (entries : List Entry) (rawFolders : List RawFolderBlock)
    (extract : ℕ → Except R7zError (List UInt8)) (row : ArchiveListingEntry) (action : RetainedEntryAction)
    (kept : PreservedArchiveEntry) : Prop where
  entry : ∃ entry, entries[row.index]? = some entry ∧ kept.name = entry.display ∧
    kept.rawName = entry.name.bind RawEntryName.fromUtf16le
  kind : kept.kind = preservedEntryKind row.kind
  metadata : kept.metadata = entryMetaFromArchive files row.index
  stream : KeptStream rawFolders extract row action kept.stream

section
variable {files : FilesInfo} {entries : List Entry} {rawFolders : List RawFolderBlock}
  {extract : ℕ → Except R7zError (List UInt8)} {retained : ℕ → Bool} {rows : List ArchiveListingEntry}

theorem preservedStream_spec {name : String} {row : ArchiveListingEntry} {action : RetainedEntryAction}
    {stream : Option PreservedEntryStream} (h : preservedStream rawFolders extract name row action = .ok stream) :
    (action = .Drop ∧ stream = none) ∨
      action ≠ .Drop ∧ ∃ kept, stream = some kept ∧ KeptStream rawFolders extract row action kept := by
  unfold preservedStream at h
  cases action with
  | Drop =>
    cases h
    exact .inl ⟨rfl, rfl⟩
  | NoStream =>
    cases h
    exact .inr ⟨nofun, _, rfl, .none⟩
  | CopyRaw folder =>
    dsimp only at h
    split at h
    · rename_i raw size hraw hsize
      cases h
      exact .inr ⟨nofun, _, rfl, .raw hraw hsize⟩
    · cases h
  | Decode =>
    dsimp only at h
    split at h
    · rename_i data hdata
      cases h
      exact .inr ⟨nofun, _, rfl, .data hdata⟩
    · split at h <;> cases h

theorem preservedRows_spec : ∀ {rows : List (ArchiveListingEntry × RetainedEntryAction)}
    {kept : List PreservedArchiveEntry}, preservedRows files entries rawFolders extract rows = .ok kept →
      List.Forall₂ (fun row kept => KeptRow files entries rawFolders extract row.1 row.2 kept)
        (rows.filter fun row => row.2 ≠ .Drop) kept
  | [], _, h => by
    cases h
    exact .nil
  | (row, action) :: rows, kept, h => by
    unfold preservedRows at h
    cases hentry : entries[row.index]? with
    | none =>
      rw [hentry] at h
      cases h
    | some entry =>
      rw [hentry] at h
      obtain ⟨stream, hstream, h⟩ := except_bind_eq_ok.mp h
      rcases preservedStream_spec hstream with ⟨rfl, rfl⟩ | ⟨haction, stream, rfl, hplanned⟩
      · rw [List.filter_cons_of_neg (by simp)]
        exact preservedRows_spec h
      · obtain ⟨rest, hrest, h⟩ := except_bind_eq_ok.mp h
        cases h
        rw [List.filter_cons_of_pos (by simpa using haction)]
        exact .cons ⟨⟨entry, hentry, rfl, rfl⟩, rfl, rfl, hplanned⟩ (preservedRows_spec hrest)

theorem decision_drop {row : ArchiveListingEntry} (hmem : row ∈ rows) :
    decision retained rows row ≠ .Drop ↔ retained row.index = true := by
  unfold decision
  cases hblock : row.block with
  | none => cases retained row.index <;> simp
  | some folder =>
    dsimp only
    by_cases hall : ∀ other ∈ rows, other.block = some folder → retained other.index = true
    · rw [if_pos hall]
      exact iff_of_true nofun (hall row hmem hblock)
    · rw [if_neg hall]
      cases retained row.index <;> simp

theorem plannedRows {kept : List PreservedArchiveEntry}
    (h : preservedRows files entries rawFolders extract (rows.map fun row => (row, decision retained rows row)) = .ok kept) :
    List.Forall₂ (fun row kept => KeptRow files entries rawFolders extract row (decision retained rows row) kept)
      (rows.filter fun row => retained row.index) kept := by
  have hkept := preservedRows_spec h
  rw [List.filter_map, List.forall₂_map_left_iff] at hkept
  have hfilter : rows.filter ((fun row : ArchiveListingEntry × RetainedEntryAction => decide (row.2 ≠ .Drop)) ∘
      fun row => (row, decision retained rows row)) = rows.filter fun row => retained row.index := by
    refine List.filter_congr fun row hrow => ?_
    rw [Function.comp_apply, ← Bool.decide_coe (retained row.index)]
    exact decide_eq_decide.mpr (decision_drop hrow)
  rwa [hfilter] at hkept

/-! What is copied -/

def RetainedEntryAction.copied : RetainedEntryAction → Option ℕ
  | .CopyRaw folder => some folder
  | .Drop | .NoStream | .Decode => none

abbrev Whole (retained : ℕ → Bool) (rows : List ArchiveListingEntry) (folder : ℕ) : Prop :=
  ∀ other ∈ rows, other.block = some folder → retained other.index = true

theorem decision_copied (row : ArchiveListingEntry) : (decision retained rows row).copied =
    row.block.bind fun folder => if Whole retained rows folder then some folder else none := by
  unfold decision
  cases row.block with
  | none => cases retained row.index <;> rfl
  | some folder =>
    dsimp only [Option.bind_some]
    by_cases h : Whole retained rows folder
    · rw [if_pos h, if_pos h]
      rfl
    · rw [if_neg h, if_neg h]
      cases retained row.index <;> rfl

theorem KeptRow.rawRow {row : ArchiveListingEntry} {action : RetainedEntryAction} {kept : PreservedArchiveEntry}
    (h : KeptRow files entries rawFolders extract row action kept) :
    kept.stream.rawRow.map numbered = action.copied.map fun folder => (folder, row.index) := by
  have hstream := h.stream
  generalize kept.stream = stream at hstream
  cases hstream with
  | none | data => rfl
  | raw hraw _ =>
    dsimp only [PreservedEntryStream.rawRow, RetainedEntryAction.copied, Option.map_some, numbered]
    rw [(rawById_spec hraw).2]

theorem KeptRow.owned {row : ArchiveListingEntry} {kept : PreservedArchiveEntry}
    (h : KeptRow files entries rawFolders extract row (decision retained rows row) kept) :
    kept.stream.owned = row.block.isSome := by
  have hstream := h.stream
  generalize kept.stream = stream at hstream
  unfold decision at hstream
  cases hblock : row.block with
  | none =>
    rw [hblock] at hstream
    cases hretained : retained row.index with
    | false =>
      rw [hretained] at hstream
      cases hstream
    | true =>
      rw [hretained] at hstream
      cases hstream
      rfl
  | some folder =>
    rw [hblock] at hstream
    dsimp only at hstream
    split at hstream
    · cases hstream
      rfl
    · split at hstream <;> cases hstream
      rfl

theorem toPreserved_rawRow (entry : PendingEntry) : entry.toPreserved.stream.rawRow = none := by
  unfold PendingEntry.toPreserved
  cases entry.kind <;> rfl

theorem plannedRawRows {action : ArchiveListingEntry → RetainedEntryAction} {kept : List PreservedArchiveEntry}
    (h : List.Forall₂ (fun row kept => KeptRow files entries rawFolders extract row (action row) kept) rows kept)
    (appendEntries : List PendingEntry) :
    rawRows (kept ++ appendEntries.map PendingEntry.toPreserved) =
      rows.filterMap fun row => (action row).copied.map fun folder => (folder, row.index) := by
  have hnew : (appendEntries.map PendingEntry.toPreserved).filterMap (fun entry => entry.stream.rawRow) = [] := by
    refine List.filterMap_eq_nil_iff.mpr fun entry hentry => ?_
    obtain ⟨pending, -, rfl⟩ := List.mem_map.mp hentry
    exact toPreserved_rawRow pending
  unfold rawRows
  rw [List.filterMap_append, hnew, List.append_nil, List.map_filterMap]
  induction h with
  | nil => rfl
  | cons hplanned _ ih => rw [List.filterMap_cons, List.filterMap_cons, hplanned.rawRow, ih]

theorem plannedWhole {listing : ArchiveListing} {row : ℕ × ℕ}
    (hrow : row ∈ (listing.entries.filter fun row => retained row.index).filterMap fun row =>
      (decision retained listing.entries row).copied.map fun folder => (folder, row.index)) :
    rawEntries ((listing.entries.filter fun row => retained row.index).filterMap fun row =>
      (decision retained listing.entries row).copied.map fun folder => (folder, row.index)) row.1 =
        folderEntries listing row.1 := by
  obtain ⟨source, -, hcopied⟩ := List.mem_filterMap.mp hrow
  obtain ⟨folder, hfolder, rfl⟩ := Option.map_eq_some_iff.mp hcopied
  rw [decision_copied] at hfolder
  obtain ⟨folder', -, hwhole⟩ := Option.bind_eq_some_iff.mp hfolder
  split at hwhole
  swap
  · cases hwhole
  rename_i hall
  cases hwhole
  unfold rawEntries folderEntries
  rw [List.filter_filterMap, List.map_filterMap, List.filterMap_filter, ← List.filterMap_eq_map, List.filterMap_filter]
  refine List.filterMap_congr fun row hmem => ?_
  rw [decision_copied]
  by_cases hblock : row.block = some folder
  · rw [hblock, if_pos (hall row hmem hblock), Option.bind_some, if_pos hall]
    simp
  · refine Eq.trans ?_ (if_neg (by simpa using hblock)).symm
    split
    · cases hother : row.block with
      | none => rfl
      | some other =>
        rw [Option.bind_some]
        split
        · have hne : other ≠ folder := fun heq => hblock (heq ▸ hother)
          simp [hne]
        · rfl
    · rfl

theorem exists_of_planned {action : ArchiveListingEntry → RetainedEntryAction} {kept : List PreservedArchiveEntry}
    (h : List.Forall₂ (fun row kept => KeptRow files entries rawFolders extract row (action row) kept) rows kept)
    {entry : PreservedArchiveEntry} (hentry : entry ∈ kept) :
    ∃ row ∈ rows, KeptRow files entries rawFolders extract row (action row) entry :=
  partner_of_mem h.flip hentry

theorem planned_fits {source : Archive} {listing : ArchiveListing} {physicalSize : Option ℕ}
    {kept : List PreservedArchiveEntry}
    (hlisting : source.header.listing physicalSize = .ok listing)
    (hbelong : ∀ raw ∈ rawFolders, raw.handle.belongsTo source = true)
    (hkept : List.Forall₂ (fun row kept =>
        KeptRow files entries rawFolders extract row (decision retained listing.entries row) kept)
      (listing.entries.filter fun row => retained row.index) kept) (appendEntries : List PendingEntry) :
    FitsSource source listing rawFolders (kept ++ appendEntries.map PendingEntry.toPreserved) where
  belong := hbelong
  rows := by
    intro entry hentry folder sourceEntry size crc hstream
    rcases List.mem_append.mp hentry with hentry | hentry
    swap
    · obtain ⟨pending, -, rfl⟩ := List.mem_map.mp hentry
      have hnone := toPreserved_rawRow pending
      rw [hstream] at hnone
      cases hnone
    obtain ⟨row, hrow, hplanned⟩ := exists_of_planned hkept hentry
    obtain ⟨hrow, -⟩ := List.mem_filter.mp hrow
    have hdecided := hplanned.stream
    rw [hstream] at hdecided
    have hcopied := @decision_copied retained listing.entries row
    generalize decision retained listing.entries row = action at hdecided hcopied
    cases hdecided with
    | @raw folder' _ raw hraw hsize =>
      obtain ⟨hmem, hindex⟩ := rawById_spec hraw
      obtain ⟨block, hblock, hfolder⟩ := Option.bind_eq_some_iff.mp hcopied.symm
      split at hfolder
      swap
      · cases hfolder
      cases hfolder
      refine ⟨hbelong raw hmem, ⟨raw, hmem, rfl⟩, row, ?_, rfl, ?_, hsize, rfl⟩
      · obtain ⟨i, hi⟩ := List.mem_iff_getElem?.mp hrow
        rwa [listing_getElem? hlisting hi]
      · rw [hblock, hindex]
  whole := by
    rw [plannedRawRows hkept]
    exact fun row hrow => plannedWhole hrow

def PreservedArchiveEntry.copied (entry : PreservedArchiveEntry) : Option ℕ :=
  (entry.stream.rawRow.map numbered).map Prod.fst

/-- Folders that are copied come in order, each of them as one run. -/
theorem planned_rising {kept : List PreservedArchiveEntry}
    (hblocks : (rows.filterMap ArchiveListingEntry.block).Pairwise (· ≤ ·))
    (hkept : List.Forall₂ (fun row kept => KeptRow files entries rawFolders extract row (decision retained rows row) kept)
      (rows.filter fun row => retained row.index) kept) (appendEntries : List PendingEntry) :
    Runs.Rising none 0
      ((owners (kept ++ appendEntries.map PendingEntry.toPreserved)).map PreservedArchiveEntry.copied) := by
  have hcopied : (owners kept).map PreservedArchiveEntry.copied =
      ((rows.filter fun row => retained row.index).filterMap ArchiveListingEntry.block).map fun folder =>
        if Whole retained rows folder then some folder else none := by
    generalize rows.filter (fun row => retained row.index) = rows' at hkept
    unfold owners
    induction hkept with
    | nil => rfl
    | @cons row entry rows' kept hplanned _ ih =>
      rw [List.filter_cons, List.filterMap_cons, hplanned.owned]
      cases hblock : row.block with
      | none => exact ih
      | some folder =>
        dsimp only [Option.isSome_some]
        rw [if_pos rfl, List.map_cons, List.map_cons, ih]
        refine congrArg₂ List.cons ?_ rfl
        unfold PreservedArchiveEntry.copied
        rw [hplanned.rawRow, decision_copied, hblock, Option.bind_some]
        split <;> rfl
  have howners : owners (kept ++ appendEntries.map PendingEntry.toPreserved) =
      owners kept ++ owners (appendEntries.map PendingEntry.toPreserved) := List.filter_append _ _
  rw [howners, List.map_append, hcopied]
  refine Runs.Rising.append (Runs.rising_of_sorted ?_ fun _ _ => .inl (Nat.zero_le _)) ?_
  · exact hblocks.sublist (List.filter_sublist.filterMap _)
  · intro number hnumber
    obtain ⟨entry, hentry, rfl⟩ := List.mem_map.mp hnumber
    obtain ⟨pending, -, rfl⟩ := List.mem_map.mp (List.mem_of_mem_filter hentry)
    unfold PreservedArchiveEntry.copied
    rw [toPreserved_rawRow]
    rfl

end

/-! Planned updates -/

section
variable {archive : Archive} {crc32 : List UInt8 → UInt32} {extract : ℕ → Except R7zError (List UInt8)}
  {shouldDrop : Entry → Bool} {appendEntries : List PendingEntry} {entries : List PreservedArchiveEntry}
  {rawFolders : List RawFolderBlock} {listing : ArchiveListing}

theorem rawFolder_handle {folder : ℕ} {raw : RawFolderBlock} (h : archive.rawFolder crc32 folder = .ok raw) :
    raw.handle = ⟨archive.identity, folder⟩ := by
  unfold Archive.rawFolder at h
  obtain ⟨_, -, h⟩ := except_bind_eq_ok.mp h
  obtain ⟨_, -, h⟩ := except_bind_eq_ok.mp h
  obtain ⟨_, -, h⟩ := except_bind_eq_ok.mp h
  obtain ⟨_, -, h⟩ := except_bind_eq_ok.mp h
  obtain ⟨_, -, h⟩ := except_bind_eq_ok.mp h
  obtain ⟨_, -, h⟩ := except_bind_eq_ok.mp h
  obtain ⟨_, -, h⟩ := except_bind_eq_ok.mp h
  obtain ⟨_, -, h⟩ := except_bind_eq_ok.mp h
  obtain ⟨_, -, h⟩ := except_bind_eq_ok.mp h
  obtain ⟨_, -, h⟩ := except_bind_eq_ok.mp h
  cases h
  rfl

theorem preservedRewriteEntries_eq {files : FilesInfo} (hfiles : archive.header.filesInfo = some files)
    (hlisting : archive.header.listing (some archive.source.bytes.length) = .ok listing) :
    preservedRewriteEntries archive crc32 extract shouldDrop appendEntries = (do
      let rawFolders ← inPlan (preservedRawFolders archive crc32
        (listing.entries.map (decision (retains archive.entries shouldDrop) listing.entries)))
      let rows ← preservedRows files archive.entries rawFolders extract
        (listing.entries.map fun row => (row, decision (retains archive.entries shouldDrop) listing.entries row))
      return (rows ++ appendEntries.map PendingEntry.toPreserved, rawFolders)) := by
  have hcount : archive.entries.length = listing.entries.length := by
    rw [Archive.entries_length, listing_length hlisting]
  unfold preservedRewriteEntries
  rw [hfiles, hlisting]
  change (do
    let rawFolders ← inPlan (preservedRawFolders archive crc32
      (retainedActions (retains archive.entries shouldDrop) listing.entries archive.entries.length))
    let rows ← preservedRows files archive.entries rawFolders extract (listing.entries.zip
      (retainedActions (retains archive.entries shouldDrop) listing.entries archive.entries.length))
    return (rows ++ appendEntries.map PendingEntry.toPreserved, rawFolders)) = _
  rw [hcount, retainedActions_eq (listing_indices hlisting), ← List.map_prod_left_eq_zip]

theorem inPlan_eq_ok {α : Type} {x : Except R7zError α} {a : α} : inPlan x = .ok a ↔ x = .ok a := by
  cases x with
  | error e => exact iff_of_false nofun nofun
  | ok b =>
    constructor
    · rintro ⟨⟩
      rfl
    · rintro ⟨⟩
      rfl

theorem preservedRewriteEntries_spec {files : FilesInfo} (hfiles : archive.header.filesInfo = some files)
    (hlisting : archive.header.listing (some archive.source.bytes.length) = .ok listing)
    (h : preservedRewriteEntries archive crc32 extract shouldDrop appendEntries = .ok (entries, rawFolders)) :
    preservedRawFolders archive crc32
        (listing.entries.map (decision (retains archive.entries shouldDrop) listing.entries)) = .ok rawFolders ∧
      ∃ kept, entries = kept ++ appendEntries.map PendingEntry.toPreserved ∧
        List.Forall₂ (fun row kept => KeptRow files archive.entries rawFolders extract row
            (decision (retains archive.entries shouldDrop) listing.entries row) kept)
          (listing.entries.filter fun row => retains archive.entries shouldDrop row.index) kept := by
  rw [preservedRewriteEntries_eq hfiles hlisting] at h
  obtain ⟨raws, hraws, h⟩ := except_bind_eq_ok.mp h
  obtain ⟨kept, hkept, h⟩ := except_bind_eq_ok.mp h
  cases h
  exact ⟨inPlan_eq_ok.mp hraws, kept, rfl, plannedRows hkept⟩

theorem preservedRawFolders_belong {actions : List RetainedEntryAction}
    (h : preservedRawFolders archive crc32 actions = .ok rawFolders) :
    ∀ raw ∈ rawFolders, raw.handle.belongsTo archive = true := by
  refine forall_of_mapM (fun folder raw hraw => ?_) h
  rw [rawFolder_handle hraw]
  exact decide_eq_true rfl

end

end Write

end R7z
