import R7z.Update.KeptMetadata
import R7z.Update.PlannedCopies
import R7z.WrittenOutput

/-! The output of an update: the packed streams of its folders one after the other, where a folder that is copied
has the bytes, the sizes and the coders of the source. -/

namespace R7z

open Wire Effect Effect.Machine

namespace Write

/-! Packed bytes that are copied -/

section
variable {outside : Outside} {prepared : PreparedArchiveOptions} {start : Sink} {front : List UInt8}
  {w w' : ArchiveWriter} {rawFolders : List RawFolderBlock} {entries : List StagedEntry}

end

/-! The file of an update -/

section
variable {outside : Outside} {options : Except R7zError PreparedArchiveOptions} {rawFolders : List RawFolderBlock}
  {entries : List PreservedArchiveEntry} {w w' : ArchiveWriter}

end

/-! The rows of a folder that is copied -/

section
variable {outside : Outside} {rawFolders : List RawFolderBlock} {entries : List PreservedArchiveEntry}
  {staged : List StagedEntry} {id : WriteFolderId}

/-- New data goes behind every folder that is copied. -/
theorem Stages.copied {entry : PreservedArchiveEntry} {row : StagedEntry}
    (h : Stages rawFolders (maxRawFolder rawFolders + 1) entry row) {raw : RawFolderBlock} (hraw : raw ∈ rawFolders) :
    entry.copied = some raw.handle.index ↔ row.folderId = some raw.handle.index := by
  have hle := le_maxRawFolder hraw
  have hstream := h.stream
  unfold PreservedArchiveEntry.copied StagedEntry.folderId
  generalize entry.stream = source at hstream
  generalize row.stream = stream at hstream
  cases hstream with
  | none => exact Iff.rfl
  | raw => exact Iff.rfl
  | data htarget | path htarget =>
    refine iff_of_false nofun fun hsame => ?_
    obtain rfl := Option.some.inj hsame
    exact absurd hle (Nat.not_le.mpr htarget)

end

/-! A plan, and what it puts out -/

section
variable {archive : Archive} {crc32 : List UInt8 → UInt32} {extract : ℕ → Except R7zError (List UInt8)}
  {shouldDrop : Entry → Bool} {appendEntries : List PendingEntry} {entries : List PreservedArchiveEntry}
  {rawFolders : List RawFolderBlock} {listing : ArchiveListing}

end

end Write

end R7z
