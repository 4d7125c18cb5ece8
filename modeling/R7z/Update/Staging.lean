import R7z.ListingRows
import R7z.Update.Preserved

/-! What validation and staging find out about the rows of an update: which source rows a raw row
stands for, and which folder of the output each row goes to. -/

namespace R7z

open Wire Effect Effect.Machine Wire.Parser

namespace Write

def PreservedEntryStream.rawRow : PreservedEntryStream → Option (RawFolderHandle × Nat)
  | .Raw folder sourceEntry _ _ => some (folder, sourceEntry)
  | _ => none

def PreservedEntryStream.owned : PreservedEntryStream → Bool
  | .None => false
  | _ => true

def owners (entries : List PreservedArchiveEntry) : List PreservedArchiveEntry :=
  entries.filter fun entry => entry.stream.owned

/-! Validation -/

def numbered (row : RawFolderHandle × Nat) : Nat × Nat := (row.1.index, row.2)

structure MatchesListing (source : Archive) (listing : ArchiveListing)
    (rawFolders : List RawFolderBlock) (folder : RawFolderHandle) (sourceEntry size : Nat)
    (crc : Option UInt32) : Prop where
  belongs : folder.belongsTo source = true
  copied : ∃ raw ∈ rawFolders, raw.handle = folder
  row : ∃ info, listing.entries[sourceEntry]? = some info ∧ info.index = sourceEntry ∧
    info.block = some folder.index ∧ info.size = some size ∧ info.crc = crc

theorem validateRawRow_iff {source : Archive} {listing : ArchiveListing}
    {rawFolders : List RawFolderBlock} {folder : RawFolderHandle} {sourceEntry size : ℕ}
    {crc : Option UInt32} :
    validateRawRow source listing rawFolders folder sourceEntry size crc = .ok () ↔
      MatchesListing source listing rawFolders folder sourceEntry size crc := by
  unfold validateRawRow
  constructor
  · intro h
    cases hinfo : listing.entries[sourceEntry]?.filter fun info => info.index = sourceEntry with
    | none => rw [hinfo] at h; cases h
    | some info =>
      rw [hinfo] at h
      dsimp only at h
      obtain ⟨hat, hindex⟩ := Option.filter_eq_some_iff.mp hinfo
      split at h
      · cases h
      · rename_i hfolder
        split at h
        · cases h
        · rename_i hrow
          push Not at hfolder hrow
          refine ⟨hfolder.1, ?_, info, hat, of_decide_eq_true hindex, hrow⟩
          obtain ⟨raw, hmem, hraw⟩ := List.any_eq_true.mp hfolder.2
          exact ⟨raw, hmem, of_decide_eq_true hraw⟩
  · rintro ⟨hbelongs, ⟨raw, hmem, hraw⟩, info, hat, hindex, hblock, hsize, hcrc⟩
    have hany : (rawFolders.any fun raw => raw.handle = folder) = true :=
      List.any_eq_true.mpr ⟨raw, hmem, decide_eq_true hraw⟩
    have hfilter : listing.entries[sourceEntry]?.filter (fun info => info.index = sourceEntry) =
        some info := Option.filter_eq_some_iff.mpr ⟨hat, decide_eq_true hindex⟩
    rw [hfilter]
    dsimp only
    rw [if_neg (by simp [hbelongs, hany]), if_neg (by simp [hblock, hsize, hcrc])]

theorem validateRawRows_iff {source : Archive} {listing : ArchiveListing}
    {rawFolders : List RawFolderBlock} : ∀ {entries : List PreservedArchiveEntry} {rows : List (ℕ × ℕ)},
    validateRawRows source listing rawFolders entries = .ok rows ↔
      (∀ entry ∈ entries, ∀ folder sourceEntry size crc,
        entry.stream = .Raw folder sourceEntry size crc →
          MatchesListing source listing rawFolders folder sourceEntry size crc) ∧
      rows = (entries.filterMap fun entry => entry.stream.rawRow).map numbered
  | [], rows => by
    constructor
    · intro h
      cases h
      exact ⟨fun _ hmem => absurd hmem List.not_mem_nil, rfl⟩
    · rintro ⟨-, rfl⟩
      rfl
  | entry :: entries, rows => by
    unfold validateRawRows
    rw [List.forall_mem_cons, List.filterMap_cons]
    cases hstream : entry.stream with
    | Raw folder sourceEntry size crc =>
      dsimp only [PreservedEntryStream.rawRow]
      rw [except_bind_eq_ok]
      constructor
      · rintro ⟨_, hrow, h⟩
        obtain ⟨rest, hrest, h⟩ := except_bind_eq_ok.mp h
        cases h
        obtain ⟨hall, rfl⟩ := validateRawRows_iff.mp hrest
        refine ⟨⟨?_, hall⟩, rfl⟩
        rintro folder' sourceEntry' size' crc' heq
        cases heq
        exact validateRawRow_iff.mp hrow
      · rintro ⟨⟨hrow, hall⟩, rfl⟩
        refine ⟨(), validateRawRow_iff.mpr (hrow _ _ _ _ rfl), ?_⟩
        exact except_bind_eq_ok.mpr ⟨_, validateRawRows_iff.mpr ⟨hall, rfl⟩, rfl⟩
    | None | Data | Path =>
      dsimp only [PreservedEntryStream.rawRow]
      rw [validateRawRows_iff]
      constructor
      · rintro ⟨hall, rfl⟩
        refine ⟨⟨?_, hall⟩, rfl⟩
        rintro folder sourceEntry size crc heq
        cases heq
      · rintro ⟨⟨-, hall⟩, rfl⟩
        exact ⟨hall, rfl⟩

def rawRows (entries : List PreservedArchiveEntry) : List (Nat × Nat) :=
  (entries.filterMap fun entry => entry.stream.rawRow).map numbered

structure FitsSource (source : Archive) (listing : ArchiveListing)
    (rawFolders : List RawFolderBlock) (entries : List PreservedArchiveEntry) : Prop where
  belong : ∀ raw ∈ rawFolders, raw.handle.belongsTo source = true
  rows : ∀ entry ∈ entries, ∀ folder sourceEntry size crc,
    entry.stream = .Raw folder sourceEntry size crc →
      MatchesListing source listing rawFolders folder sourceEntry size crc
  whole : ∀ row ∈ rawRows entries, rawEntries (rawRows entries) row.1 = folderEntries listing row.1

theorem validateRawFolderUpdate_iff {source : Archive} {entries : List PreservedArchiveEntry}
    {rawFolders : List RawFolderBlock} :
    validateRawFolderUpdate source entries rawFolders = .ok () ↔
      ∃ listing, source.header.listing (some source.source.bytes.length) = .ok listing ∧
        FitsSource source listing rawFolders entries := by
  unfold validateRawFolderUpdate
  constructor
  · intro h
    split at h
    · cases h
    · rename_i hbelong
      obtain ⟨listing, hlisting, h⟩ := except_bind_eq_ok.mp h
      obtain ⟨rows, hrows, h⟩ := except_bind_eq_ok.mp h
      obtain ⟨hall, rfl⟩ := validateRawRows_iff.mp hrows
      split at h
      · cases h
      · rename_i hwhole
        refine ⟨listing, hlisting, ?_, hall, ?_⟩
        · intro raw hraw
          by_contra hother
          exact hbelong (List.any_eq_true.mpr ⟨raw, hraw, decide_eq_true hother⟩)
        · intro row hrow
          by_contra hother
          exact hwhole (List.any_eq_true.mpr ⟨row, hrow, decide_eq_true hother⟩)
  · rintro ⟨listing, hlisting, hbelong, hrows, hwhole⟩
    have hnone : ¬(rawFolders.any fun folder => decide ¬folder.handle.belongsTo source = true) := by
      intro hany
      obtain ⟨raw, hraw, hother⟩ := List.any_eq_true.mp hany
      exact of_decide_eq_true hother (hbelong raw hraw)
    rw [if_neg hnone]
    refine except_bind_eq_ok.mpr ⟨listing, hlisting, ?_⟩
    refine except_bind_eq_ok.mpr ⟨rawRows entries, validateRawRows_iff.mpr ⟨hrows, rfl⟩, ?_⟩
    refine if_neg fun hany => ?_
    obtain ⟨row, hrow, hother⟩ := List.any_eq_true.mp hany
    exact of_decide_eq_true hother (hwhole row hrow)

/-! Staging -/

/-- Where the data of a row goes: a raw row to the folder it names, new data to a folder behind all of
those. -/
inductive StagesStream (rawFolders : List RawFolderBlock) (first : WriteFolderId) :
    PreservedEntryStream → StagedStream → Prop where
  | none : StagesStream rawFolders first .None .None
  | raw {folder : RawFolderHandle} {sourceEntry size : ℕ} {crc : Option UInt32} {raw : RawFolderBlock}
    (hraw : rawById rawFolders folder.index = some raw) (hhandle : raw.handle = folder) :
    StagesStream rawFolders first (.Raw folder sourceEntry size crc) (.Folder folder.index (.Raw size crc))
  | data {data : List UInt8} {target : WriteFolderId} (htarget : first ≤ target) :
    StagesStream rawFolders first (.Data data) (.Folder target (.Data data))
  | path {file : Except R7zError Reader} {size : UInt64} {target : WriteFolderId}
    (htarget : first ≤ target) :
    StagesStream rawFolders first (.Path file size) (.Folder target (.Path file size))

structure Stages (rawFolders : List RawFolderBlock) (first : WriteFolderId)
    (entry : PreservedArchiveEntry) (staged : StagedEntry) : Prop where
  name : staged.name = entry.name
  rawName : staged.rawName = entry.rawName
  kind : staged.kind = entry.kind
  metadata : staged.metadata = entry.metadata
  stream : StagesStream rawFolders first entry.stream staged.stream

structure StagedDataFolders.Behind (first : WriteFolderId) (folders : StagedDataFolders) : Prop where
  next : first ≤ folders.next
  current : ∀ target progress, folders.current = some (target, progress) → first ≤ target

namespace StagedDataFolders

variable {first : WriteFolderId} {folders folders' : StagedDataFolders}

theorem new_behind (first : WriteFolderId) : (StagedDataFolders.new first).Behind first :=
  ⟨Nat.le_refl first, fun _ _ h => by cases h⟩

theorem breakFolder_behind (h : folders.Behind first) : folders.breakFolder.Behind first :=
  ⟨h.next, fun _ _ h => by cases h⟩

theorem openFolder_behind (h : folders.Behind first) {solid : SolidMode} {size : UInt64}
    {target : WriteFolderId} {progress : FolderProgress}
    (hopen : folders.openFolder solid size = .ok (folders', target, progress)) :
    folders'.Behind first ∧ first ≤ target := by
  have hfresh : ∀ {opened : StagedDataFolders × WriteFolderId × FolderProgress},
      (do
        let next ← WriteFolderId.next folders.next
        return ({ next, current := some (folders.next, FolderProgress.default) }, folders.next,
          FolderProgress.default) : Except R7zError _) = .ok opened →
        opened.1.Behind first ∧ first ≤ opened.2.1 := by
    intro opened hopened
    obtain ⟨next, hnext, hopened⟩ := except_bind_eq_ok.mp hopened
    cases hopened
    unfold WriteFolderId.next at hnext
    split at hnext
    · cases hnext
      refine ⟨⟨h.next.trans (Nat.le_succ _), ?_⟩, h.next⟩
      rintro target progress heq
      cases heq
      exact h.next
    · cases hnext
  unfold openFolder at hopen
  cases hcurrent : folders.current with
  | none =>
    rw [hcurrent] at hopen
    exact hfresh hopen
  | some current =>
    obtain ⟨target', progress'⟩ := current
    rw [hcurrent] at hopen
    obtain ⟨exceeds, -, hopen⟩ := except_bind_eq_ok.mp hopen
    cases exceeds with
    | true => exact hfresh hopen
    | false =>
      cases hopen
      exact ⟨h, h.current _ _ hcurrent⟩

theorem assign_behind (h : folders.Behind first) {solid : SolidMode} {size : UInt64}
    {target : WriteFolderId} (hassign : folders.assign solid size = .ok (folders', target)) :
    folders'.Behind first ∧ first ≤ target := by
  obtain ⟨⟨opened, target', progress⟩, hopen, hassign⟩ := except_bind_eq_ok.mp hassign
  obtain ⟨progress', -, hassign⟩ := except_bind_eq_ok.mp hassign
  cases hassign
  obtain ⟨hopened, hle⟩ := openFolder_behind h hopen
  refine ⟨⟨hopened.next, ?_⟩, hle⟩
  rintro target progress heq
  cases heq
  exact hle

end StagedDataFolders

section
variable {rawFolders : List RawFolderBlock} {solid : SolidMode} {first : WriteFolderId}

theorem stageStream_spec {folders folders' : StagedDataFolders} (h : folders.Behind first)
    {stream : PreservedEntryStream} {staged : StagedStream}
    (hstage : stageStream rawFolders solid folders stream = .ok (folders', staged)) :
    folders'.Behind first ∧ StagesStream rawFolders first stream staged := by
  unfold stageStream at hstage
  cases stream with
  | None =>
    cases hstage
    exact ⟨h, .none⟩
  | Raw folder sourceEntry size crc =>
    dsimp only at hstage
    split at hstage
    · cases hstage
    · rename_i hall
      cases hstage
      refine ⟨StagedDataFolders.breakFolder_behind h, ?_⟩
      cases hraw : rawById rawFolders folder.index with
      | none => simp [hraw] at hall
      | some raw => exact .raw hraw (by simpa [hraw] using hall)
  | Data data =>
    obtain ⟨⟨assigned, target⟩, hassign, hstage⟩ := except_bind_eq_ok.mp hstage
    cases hstage
    obtain ⟨hbehind, hle⟩ := StagedDataFolders.assign_behind h hassign
    exact ⟨hbehind, .data hle⟩
  | Path file size =>
    obtain ⟨⟨assigned, target⟩, hassign, hstage⟩ := except_bind_eq_ok.mp hstage
    cases hstage
    obtain ⟨hbehind, hle⟩ := StagedDataFolders.assign_behind h hassign
    exact ⟨hbehind, .path hle⟩

theorem stageEntries_spec : ∀ {entries : List PreservedArchiveEntry} {folders : StagedDataFolders}
    {staged : List StagedEntry}, folders.Behind first →
      stageEntries rawFolders solid folders entries = .ok staged →
        List.Forall₂ (Stages rawFolders first) entries staged
  | [], _, _, _, hstage => by
    cases hstage
    exact .nil
  | entry :: entries, folders, staged, h, hstage => by
    obtain ⟨⟨folders', stream⟩, hstream, hstage⟩ := except_bind_eq_ok.mp hstage
    obtain ⟨rest, hrest, hstage⟩ := except_bind_eq_ok.mp hstage
    cases hstage
    obtain ⟨hbehind, hstages⟩ := stageStream_spec h hstream
    exact .cons ⟨rfl, rfl, rfl, rfl, hstages⟩ (stageEntries_spec hbehind hrest)

theorem owners_folders {entries : List PreservedArchiveEntry} {staged : List StagedEntry}
    (h : List.Forall₂ (Stages rawFolders first) entries staged) :
    List.Forall₂ (fun entry target => ∃ row : StagedEntry,
        Stages rawFolders first entry row ∧ row.folderId = some target)
      (owners entries) (staged.filterMap StagedEntry.folderId) := by
  unfold owners
  induction h with
  | nil => exact .nil
  | @cons entry row entries staged hstages _ ih =>
    rw [List.filter_cons, List.filterMap_cons]
    have hfolder : (entry.stream.owned = false ∧ row.folderId = none) ∨
        entry.stream.owned = true ∧ ∃ target, row.folderId = some target := by
      have hstream := hstages.stream
      unfold StagedEntry.folderId
      generalize entry.stream = stream at hstream
      generalize row.stream = stream' at hstream
      cases hstream with
      | none => exact .inl ⟨rfl, rfl⟩
      | raw | data | path => exact .inr ⟨rfl, _, rfl⟩
    rcases hfolder with ⟨howned, hfolder⟩ | ⟨howned, target, hfolder⟩
    · rw [howned, hfolder]
      exact ih
    · rw [howned, hfolder]
      exact .cons ⟨row, hstages, hfolder⟩ ih

theorem le_maxRawFolder {raw : RawFolderBlock} (h : raw ∈ rawFolders) :
    raw.handle.index ≤ maxRawFolder rawFolders := by
  unfold maxRawFolder
  induction rawFolders with
  | nil => cases h
  | cons other rawFolders ih =>
    rw [List.map_cons, List.foldr_cons]
    rcases List.mem_cons.mp h with rfl | h
    · exact Nat.le_max_left _ _
    · exact (ih h).trans (Nat.le_max_right _ _)

theorem rawById_spec {target : WriteFolderId} {raw : RawFolderBlock}
    (h : rawById rawFolders target = some raw) : raw ∈ rawFolders ∧ raw.handle.index = target := by
  unfold rawById at h
  refine ⟨List.mem_reverse.mp (List.mem_of_find?_eq_some h), ?_⟩
  have hfound := List.find?_some h
  exact of_decide_eq_true hfound

theorem stagePreservedEntries_spec {entries : List PreservedArchiveEntry} {staged : StagedPreserved}
    (h : stagePreservedEntries entries rawFolders solid = .ok staged) :
    List.Forall₂ (Stages rawFolders (maxRawFolder rawFolders + 1)) entries staged.entries ∧
      (∀ target, Runs.Adjacent target (staged.entries.filterMap StagedEntry.folderId)) ∧
      staged.folderOrder = folderOrder (staged.entries.filterMap StagedEntry.folderId) := by
  obtain ⟨next, hnext, h⟩ := except_bind_eq_ok.mp h
  have hfirst : next = maxRawFolder rawFolders + 1 := by
    unfold WriteFolderId.next at hnext
    split at hnext
    · exact (Except.ok.inj hnext).symm
    · cases hnext
  rw [hfirst] at h
  obtain ⟨rows, hrows, h⟩ := except_bind_eq_ok.mp h
  dsimp only at h
  split at h
  · rename_i hruns
    cases h
    exact ⟨stageEntries_spec (StagedDataFolders.new_behind _) hrows,
      Runs.runsFrom_none_iff.mp hruns, rfl⟩
  · cases h

end

end Write

end R7z
