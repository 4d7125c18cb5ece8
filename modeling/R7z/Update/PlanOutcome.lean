import R7z.Update.PlannedStaging

/-! When an update can be planned, and what the plan keeps. -/

namespace R7z

open Wire

namespace Write

section
variable {archive : Archive} {crc32 : List UInt8 → UInt32} {extract : ℕ → Except R7zError (List UInt8)}
  {shouldDrop : Entry → Bool} {appendEntries : List PendingEntry} {entries : List PreservedArchiveEntry}
  {rawFolders : List RawFolderBlock} {listing : ArchiveListing}

section
variable {keep : ℕ → Bool}

end

theorem listing_of_plan {files : FilesInfo} (hfiles : archive.header.filesInfo = some files)
    {plan : List PreservedArchiveEntry × List RawFolderBlock}
    (h : preservedRewriteEntries archive crc32 extract shouldDrop appendEntries = .ok plan) :
    ∃ listing, archive.header.listing (some archive.source.bytes.length) = .ok listing := by
  cases hlisting : archive.header.listing (some archive.source.bytes.length) with
  | ok listing => exact ⟨listing, rfl⟩
  | error e =>
    unfold preservedRewriteEntries at h
    rw [hfiles, hlisting] at h
    cases h

end

end Write

end R7z
