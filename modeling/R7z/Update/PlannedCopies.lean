import R7z.PlannedFolders
import R7z.SessionDecoders
import R7z.Update.PlanOutcome

/-! The rows of a folder, and the entries of a plan that copy it. -/

namespace R7z

open Wire

/-! The rows of a folder are its substreams -/

section
variable {header : Header} {physicalSize : Option ℕ} {listing : ArchiveListing}

end

namespace Write

section
variable {archive : Archive} {crc32 : List UInt8 → UInt32} {extract : ℕ → Except R7zError (List UInt8)}
  {shouldDrop : Entry → Bool} {appendEntries : List PendingEntry} {entries : List PreservedArchiveEntry}
  {rawFolders : List RawFolderBlock} {listing : ArchiveListing}

end

end Write

end R7z
