import R7z.WriterNames

/-! The folders of a writer by the sizes of their files, and the limits of a solid mode on them. -/

namespace R7z

open Wire Effect Effect.Machine Write

namespace Write

def totalSize (sizes : List UInt64) : ℕ := (sizes.map UInt64.toNat).sum

theorem totalSize_append (sizes : List UInt64) (size : UInt64) :
    totalSize (sizes ++ [size]) = totalSize sizes + size.toNat := by
  simp [totalSize]

/-- The files of one folder, by their sizes, are no more than the solid mode lets stand together. -/
def SolidMode.FilesWithin : SolidMode → List UInt64 → Prop
  | .Solid, _ => True
  | .NonSolid, sizes => sizes.length = 1
  | .Limit maxFiles _, sizes => 1 < sizes.length → ∀ limit ∈ maxFiles, sizes.length ≤ limit.val.toNat

/-- The files of one folder, by their sizes, have no more bytes than the solid mode lets stand
together. -/
def SolidMode.BytesWithin : SolidMode → List UInt64 → Prop
  | .Solid, _ => True
  | .NonSolid, _ => True
  | .Limit _ maxBytes, sizes => 1 < sizes.length → ∀ limit ∈ maxBytes, totalSize sizes ≤ limit.val.toNat

def SolidMode.full : SolidMode → List UInt64 → Bool
  | .Solid, _ => false
  | .NonSolid, sizes => decide (0 < sizes.length)
  | .Limit maxFiles maxBytes, sizes => maxFiles.any (fun limit => decide (limit.val.toNat ≤ sizes.length)) ||
      maxBytes.any fun limit => decide (limit.val.toNat ≤ totalSize sizes)

structure SolidMode.Within (solid : SolidMode) (q : Prop) (sizes : List UInt64) : Prop where
  files : solid.FilesWithin sizes
  bytes : q → solid.BytesWithin sizes

theorem SolidMode.within_one (solid : SolidMode) (q : Prop) (size : UInt64) : solid.Within q [size] := by
  constructor
  · cases solid with
    | Solid => trivial
    | NonSolid => rfl
    | Limit => exact fun h => absurd h (Nat.lt_irrefl 1)
  · intro _
    cases solid with
    | Solid | NonSolid => trivial
    | Limit => exact fun h => absurd h (Nat.lt_irrefl 1)

theorem none_exceeded {limit : Option NonZeroU64} {n : UInt64} :
    (limit.any fun limit => decide (n > limit.val)) = false ↔ ∀ l ∈ limit, n.toNat ≤ l.val.toNat := by
  cases limit with
  | none => simp
  | some limit => simp [UInt64.le_iff_toNat_le]

theorem none_reached {limit : Option NonZeroU64} {n : UInt64} :
    (limit.any fun limit => decide (n ≥ limit.val)) = false ↔ ∀ l ∈ limit, n.toNat < l.val.toNat := by
  cases limit with
  | none => simp
  | some limit => simp [UInt64.lt_iff_toNat_lt]

structure FolderProgress.Tallies (progress : FolderProgress) (sizes : List UInt64) : Prop where
  files : progress.files.toNat = sizes.length
  bytes : progress.bytes.toNat = totalSize sizes

namespace FolderProgress

variable {progress progress' : FolderProgress} {sizes : List UInt64} {size : UInt64} {solid : SolidMode}

theorem default_tallies : FolderProgress.default.Tallies [] := ⟨rfl, rfl⟩

theorem checkedAddU64_toNat {a b c : UInt64} (h : checkedAddU64 a b = .ok c) :
    c.toNat = a.toNat + b.toNat := by
  unfold checkedAddU64 checkedAdd at h
  split at h
  · next hlt =>
    cases h
    rw [UInt64.toNat_add, Nat.mod_eq_of_lt hlt]
  · cases h

theorem Tallies.record (h : progress.Tallies sizes) (hrecord : progress.record size = .ok progress') :
    progress'.Tallies (sizes ++ [size]) := by
  obtain ⟨files, hfiles, hrecord⟩ := except_bind_eq_ok.mp hrecord
  obtain ⟨bytes, hbytes, hrecord⟩ := except_bind_eq_ok.mp hrecord
  cases hrecord
  constructor
  · show files.toNat = _
    rw [checkedAddU64_toNat hfiles, h.files, List.length_append]
    rfl
  · show bytes.toNat = _
    rw [checkedAddU64_toNat hbytes, h.bytes, totalSize_append]

theorem Tallies.files_pos (h : progress.Tallies sizes) (hsizes : sizes ≠ []) : progress.files > 0 := by
  apply UInt64.lt_iff_toNat_lt.mpr
  rw [h.files]
  exact List.length_pos_iff.mpr hsizes

theorem Tallies.eq_nil (h : progress.Tallies sizes) (hfiles : ¬progress.files > 0) : sizes = [] := by
  by_contra hsizes
  exact hfiles (h.files_pos hsizes)

theorem Tallies.full (h : progress.Tallies sizes) : progress.reachedLimit solid = solid.full sizes := by
  cases solid with
  | Solid => rfl
  | NonSolid =>
    rw [SolidMode.full, ← h.files]
    rfl
  | Limit maxFiles maxBytes =>
    simp only [FolderProgress.reachedLimit, SolidMode.full, ← h.files, ← h.bytes, ge_iff_le,
      UInt64.le_iff_toNat_le]

theorem Tallies.wouldExceed_limit (h : progress.Tallies sizes) (hsizes : sizes ≠ [])
    {maxFiles maxBytes : Option NonZeroU64} {exceeds : Bool}
    (hexceeds : progress.wouldExceed (.Limit maxFiles maxBytes) size = .ok exceeds) :
    exceeds = false ↔ (∀ limit ∈ maxFiles, (sizes ++ [size]).length ≤ limit.val.toNat) ∧
      ∀ limit ∈ maxBytes, totalSize (sizes ++ [size]) ≤ limit.val.toNat := by
  obtain ⟨files, hfiles, hexceeds⟩ := except_bind_eq_ok.mp hexceeds
  obtain ⟨bytes, hbytes, hexceeds⟩ := except_bind_eq_ok.mp hexceeds
  cases hexceeds
  have hlength : (sizes ++ [size]).length = files.toNat := by
    rw [checkedAddU64_toNat hfiles, h.files, List.length_append]
    rfl
  have htotal : totalSize (sizes ++ [size]) = bytes.toNat := by
    rw [checkedAddU64_toNat hbytes, h.bytes, totalSize_append]
  rw [hlength, htotal, decide_eq_true (h.files_pos hsizes), Bool.true_and, Bool.or_eq_false_iff,
    none_exceeded, none_exceeded]

theorem Tallies.within (h : progress.Tallies sizes) (hfits : progress.wouldExceed solid size = .ok false)
    (q : Prop) : solid.Within q (sizes ++ [size]) := by
  by_cases hsizes : sizes = []
  · subst hsizes
    exact solid.within_one q size
  cases solid with
  | Solid => exact ⟨trivial, fun _ => trivial⟩
  | NonSolid =>
    have hnone : (decide (progress.files > 0)) = false := Except.ok.inj hfits
    exact absurd (h.files_pos hsizes) (of_decide_eq_false hnone)
  | Limit maxFiles maxBytes =>
    obtain ⟨hfiles, hbytes⟩ := (h.wouldExceed_limit hsizes hfits).mp rfl
    exact ⟨fun _ => hfiles, fun _ _ => hbytes⟩

theorem Tallies.room (h : progress.Tallies sizes) (size : UInt64) {maxFiles maxBytes : Option NonZeroU64}
    (hroom : progress.reachedLimit (.Limit maxFiles maxBytes) = false) :
    (∀ limit ∈ maxFiles, (sizes ++ [size]).length ≤ limit.val.toNat) ∧
      ∀ limit ∈ maxBytes, totalSize sizes < limit.val.toNat := by
  rw [List.length_append, ← h.files, ← h.bytes]
  obtain ⟨hfiles, hbytes⟩ := Bool.or_eq_false_iff.mp hroom
  exact ⟨none_reached.mp hfiles, none_reached.mp hbytes⟩

end FolderProgress

/-! The folders of a writer -/

def StreamingFolder.sizes (folder : StreamingFolder) : List UInt64 := folder.files.map FolderFile.size

/-- The folders of a writer, each by the sizes of its files: those that are complete, and the open one
with its progress. -/
structure Folders where
  complete : List (List UInt64)
  current : Option (List UInt64 × FolderProgress)

def WriterState.folders : WriterState → Option Folders
  | Ready completed => some ⟨completed.map CompletedFolder.fileSizes, none⟩
  | Active folder completed progress =>
    some ⟨completed.map CompletedFolder.fileSizes, some (folder.sizes, progress)⟩
  | Failed => none

namespace Folders

def opened (folders : Folders) : Folders :=
  { folders with current := folders.current.getD ([], FolderProgress.default) }

def completed (folders : Folders) : Folders :=
  { complete := folders.complete ++ (folders.current.map Prod.fst).toList, current := none }

/-- A file of this size is behind the others of the open folder, which is complete once it is full. -/
def Appends (solid : SolidMode) (size : UInt64) (folders folders' : Folders) : Prop :=
  ∃ sizes progress progress', folders.opened.current = some (sizes, progress) ∧
    progress.record size = .ok progress' ∧
    folders' = if progress'.reachedLimit solid then ⟨folders.complete ++ [sizes ++ [size]], none⟩
      else ⟨folders.complete, some (sizes ++ [size], progress')⟩

end Folders

def Stands (prepared : PreparedArchiveOptions) (folders : Folders) (w : ArchiveWriter) : Prop :=
  (w.prepared, w.state.folders) = (prepared, some folders)

def readerSize : Reader → ℕ
  | .ok chunk :: reader => if chunk.isEmpty then 0 else chunk.length + readerSize reader
  | _ => 0

def readerData : Reader → List UInt8
  | .ok chunk :: reader => if chunk.isEmpty then [] else chunk ++ readerData reader
  | _ => []

theorem readerData_length (reader : Reader) : (readerData reader).length = readerSize reader := by
  induction reader with
  | nil => rfl
  | cons next reader ih =>
    cases next with
    | error => rfl
    | ok chunk =>
      rw [readerData, readerSize]
      split
      · rfl
      · rw [List.length_append, ih]

section
variable {outside : Outside} {prepared : PreparedArchiveOptions} {folders : Folders}

instance : Inward fun w => (w.prepared, w.state.folders) := ⟨fun _ _ _ => rfl⟩

theorem stands_kept {α : Type} {m : WriterM α} (h : Keeps (fun w => (w.prepared, w.state.folders)) m) :
    Meets (Stands prepared folders) m (fun _ => Stands prepared folders) fun _ _ => True :=
  (h.meets (· = (prepared, some folders))).mono (fun _ h => h) (fun _ _ h => h) fun _ _ _ => trivial

theorem encoded_files {w w' : ArchiveWriter} {knownSize : Option UInt64} {folder : StreamingFolder}
    (h : StreamingFolder.encoded outside knownSize prepared w = (.ok folder, w')) :
    folder.files = [] ∧ folder.unpackSize = 0 := by
  obtain ⟨_, _, _, h⟩ := bind_eq_ok.mp h
  obtain ⟨_, _, _, h⟩ := bind_eq_ok.mp h
  obtain ⟨_, _, _, h⟩ := bind_eq_ok.mp h
  cases h
  exact ⟨rfl, rfl⟩

theorem encoded_sizes {w w' : ArchiveWriter} {knownSize : Option UInt64} {folder : StreamingFolder}
    (h : StreamingFolder.encoded outside knownSize prepared w = (.ok folder, w')) : folder.sizes = [] := by
  rw [StreamingFolder.sizes, (encoded_files h).1, List.map_nil]

theorem write_files {w w' : ArchiveWriter} {folder folder' : StreamingFolder} {bytes : List UInt8}
    (h : folder.write outside prepared bytes w = (.ok folder', w')) :
    folder'.files = folder.files ∧ folder'.unpackSize = folder.unpackSize := by
  obtain ⟨_, _, _, h⟩ := bind_eq_ok.mp h
  obtain ⟨_, _, _, h⟩ := bind_eq_ok.mp h
  cases h
  exact ⟨rfl, rfl⟩

theorem write_sizes {w w' : ArchiveWriter} {folder folder' : StreamingFolder} {bytes : List UInt8}
    (h : folder.write outside prepared bytes w = (.ok folder', w')) : folder'.sizes = folder.sizes :=
  congrArg (List.map FolderFile.size) (write_files h).1

theorem recordStream_files {folder folder' : StreamingFolder} {entryIndex : WriteEntryIndex}
    {size : UInt64} {checksum : UInt32}
    (h : folder.recordStream entryIndex size checksum = .ok folder') :
    folder'.files = folder.files ++ [{ entryIndex, size, crc := some checksum }] ∧
      folder'.unpackSize = folder.unpackSize + size := by
  unfold StreamingFolder.recordStream at h
  split at h
  · cases h
  · obtain ⟨unpackSize, hadd, h⟩ := except_bind_eq_ok.mp h
    cases h
    exact ⟨rfl, checkedAdd_eq_ok hadd⟩

theorem recordStream_sizes {folder folder' : StreamingFolder} {entryIndex : WriteEntryIndex}
    {size : UInt64} {checksum : UInt32}
    (h : folder.recordStream entryIndex size checksum = .ok folder') :
    folder'.sizes = folder.sizes ++ [size] := by
  rw [StreamingFolder.sizes, (recordStream_files h).1, List.map_append]
  rfl

theorem complete_files {w w' : ArchiveWriter} {folder : StreamingFolder} {completed : CompletedFolder}
    (h : folder.complete outside prepared w = (.ok completed, w')) :
    completed.fileIndices = folder.files.map FolderFile.entryIndex ∧
      completed.fileSizes = folder.sizes := by
  unfold StreamingFolder.complete at h
  cases hencoder : folder.encoder with
  | Raw =>
    rw [hencoder] at h
    cases h
    exact ⟨rfl, rfl⟩
  | Copy =>
    rw [hencoder] at h
    obtain ⟨_, _, _, h⟩ := bind_eq_ok.mp h
    cases h
    exact ⟨rfl, rfl⟩
  | Lzma | Ppmd =>
    rw [hencoder] at h
    obtain ⟨_, _, _, h⟩ := bind_eq_ok.mp h
    obtain ⟨_, _, _, h⟩ := bind_eq_ok.mp h
    cases h
    exact ⟨rfl, rfl⟩
  | Lzma2 | BcjLzma2 =>
    rw [hencoder] at h
    obtain ⟨_, _, _, h⟩ := bind_eq_ok.mp h
    obtain ⟨_, _, _, h⟩ := bind_eq_ok.mp h
    obtain ⟨_, _, _, h⟩ := bind_eq_ok.mp h
    cases h
    exact ⟨rfl, rfl⟩

theorem stands_iff {w : ArchiveWriter} :
    Stands prepared folders w ↔ w.prepared = prepared ∧ w.state.folders = some folders :=
  Prod.mk_inj

theorem ensureStreamingFolder_stands (plan : FolderPlan) :
    Meets (Stands prepared folders) (ArchiveWriter.ensureStreamingFolder outside plan)
      (fun _ => Stands prepared folders.opened) fun _ _ => True := by
  apply Meets.of_ok
  intro w _ w' hw h
  obtain ⟨rfl, hfolders⟩ := stands_iff.mp hw
  have hprepared : w'.prepared = w.prepared :=
    congrArg Prod.snd ((ensureStreamingFolder_keeps plan).ok h)
  rw [stands_iff]
  refine ⟨hprepared, ?_⟩
  obtain ⟨_, _, hget, h⟩ := bind_eq_ok.mp h
  cases hget
  cases hstate : w.state with
  | Failed =>
    rw [hstate] at h
    cases h
  | Active folder completed progress =>
    rw [hstate] at h hfolders
    cases h
    cases hfolders
    rw [hstate]
    rfl
  | Ready completed =>
    rw [hstate] at h hfolders
    cases hfolders
    obtain ⟨_, _, _, h⟩ := bind_eq_ok.mp h
    obtain ⟨_, _, _, h⟩ := bind_eq_ok.mp h
    obtain ⟨folder, _, hfolder, h⟩ := bind_eq_ok.mp h
    cases h
    show some (Folders.mk _ (some (folder.sizes, FolderProgress.default))) = _
    rw [encoded_sizes hfolder]
    rfl

theorem activeFolder_ok {w w' : ArchiveWriter} {folder : StreamingFolder}
    {completed : List CompletedFolder} {progress : FolderProgress}
    (h : ArchiveWriter.activeFolder w = (.ok (folder, completed, progress), w')) :
    w = w' ∧ w.state = .Active folder completed progress := by
  obtain ⟨_, _, hget, h⟩ := bind_eq_ok.mp h
  cases hget
  cases hstate : w.state with
  | Ready | Failed =>
    rw [hstate] at h
    cases h
  | Active =>
    rw [hstate] at h
    cases h
    exact ⟨rfl, rfl⟩

theorem setActive_stands {w w' : ArchiveWriter} {folder : StreamingFolder}
    {completed : List CompletedFolder} {progress : FolderProgress} (folder' : StreamingFolder)
    (progress' : FolderProgress) (hw : Stands prepared folders w)
    (hstate : w.state = .Active folder completed progress) (hprepared : w'.prepared = w.prepared) :
    folders.current = some (folder.sizes, progress) ∧
      Stands prepared ⟨folders.complete, some (folder'.sizes, progress')⟩
        { w' with state := .Active folder' completed progress' } := by
  obtain ⟨rfl, hfolders⟩ := stands_iff.mp hw
  rw [hstate] at hfolders
  cases hfolders
  exact ⟨rfl, stands_iff.mpr ⟨hprepared, rfl⟩⟩

theorem writeChunk_stands (chunk : List UInt8) :
    Meets (Stands prepared folders) (ArchiveWriter.writeChunk outside chunk)
      (fun _ => Stands prepared folders) fun _ _ => True := by
  apply Meets.of_ok
  intro w _ w' hw h
  obtain ⟨⟨folder, completed, progress⟩, _, hactive, h₁⟩ := bind_eq_ok.mp h
  obtain ⟨rfl, hstate⟩ := activeFolder_ok hactive
  obtain ⟨_, _, hget, h₂⟩ := bind_eq_ok.mp h₁
  cases hget
  obtain ⟨folder', w₁, hwrite, h₃⟩ := bind_eq_ok.mp h₂
  cases h₃
  have hprepared : w₁.prepared = w.prepared :=
    congrArg Prod.snd ((@folder_write_keeps outside _ Listing _ _ _ _).ok hwrite)
  obtain ⟨hcurrent, hafter⟩ := setActive_stands folder' progress hw hstate
    hprepared
  rw [write_sizes hwrite, ← hcurrent] at hafter
  exact hafter

theorem read_ok {w w' : ArchiveWriter} {reader : Reader} {chunk : List UInt8}
    (h : ArchiveWriter.read outside reader w = (.ok chunk, w')) :
    reader = [] ∧ chunk = [] ∨ ∃ rest, reader = .ok chunk :: rest := by
  obtain ⟨_, _, _, h⟩ := bind_eq_ok.mp h
  match reader with
  | [] =>
    obtain ⟨_, _, _, h⟩ := bind_eq_ok.mp h
    cases h
    exact .inl ⟨rfl, rfl⟩
  | .error _ :: _ => cases h
  | .ok chunk :: rest =>
    obtain ⟨_, _, _, h⟩ := bind_eq_ok.mp h
    cases h
    exact .inr ⟨rest, rfl⟩

theorem readerData_read {w w' : ArchiveWriter} {reader : Reader} {first : List UInt8}
    (h : ArchiveWriter.read outside reader w = (.ok first, w')) :
    readerData reader = if first.isEmpty then [] else first ++ readerData reader.tail := by
  rcases read_ok h with ⟨rfl, rfl⟩ | ⟨rest, rfl⟩
  · rfl
  · rw [readerData, List.tail_cons]

theorem readerSize_read {w w' : ArchiveWriter} {reader : Reader} {first : List UInt8}
    (h : ArchiveWriter.read outside reader w = (.ok first, w')) :
    readerSize reader = if first.isEmpty then 0 else first.length + readerSize reader.tail := by
  rw [← readerData_length, readerData_read h]
  split
  · rfl
  · rw [List.length_append, readerData_length]

/-- The rule for the chunks of a reader: what one chunk and one read preserve, of the data so far. -/
theorem writeChunks_meets {I : List UInt8 → ArchiveWriter → Prop}
    (hchunk : ∀ data chunk, Meets (I data) (ArchiveWriter.writeChunk outside chunk)
      (fun _ => I (data ++ chunk)) fun _ _ => True)
    (hread : ∀ data reader, Meets (I data) (ArchiveWriter.read outside reader) (fun _ => I data)
      fun _ _ => True)
    (reader : Reader) : ∀ (data chunk seen : List UInt8) (size : UInt64),
    Meets (I data) (ArchiveWriter.writeChunks outside reader chunk seen size)
      (fun written w => written.2 = size + UInt64.ofNat (chunk.length + readerSize reader) ∧
        I (data ++ (chunk ++ readerData reader)) w) fun _ _ => True := by
  induction reader with
  | nil =>
    intro data chunk seen size
    apply Meets.of_ok
    intro w written w' hw h
    obtain ⟨_, w₁, hwrite, h⟩ := bind_eq_ok.mp h
    obtain ⟨_, w₂, hsize, h⟩ := bind_eq_ok.mp h
    obtain ⟨_, w₃, hnext, h⟩ := bind_eq_ok.mp h
    cases h
    obtain ⟨hsum, rfl⟩ := Prod.mk.inj hsize
    rw [show readerData [] = [] from rfl, List.append_nil]
    exact ⟨checkedAdd_eq_ok hsum, (hread _ _).ok ((hchunk _ _).ok hw hwrite) hnext⟩
  | cons next reader ih =>
    intro data chunk seen size
    apply Meets.of_ok
    intro w written w' hw h
    obtain ⟨_, w₁, hwrite, h⟩ := bind_eq_ok.mp h
    obtain ⟨total, w₂, hsize, h⟩ := bind_eq_ok.mp h
    obtain ⟨_, w₃, hnext, hrest⟩ := bind_eq_ok.mp h
    obtain ⟨hsum, rfl⟩ := Prod.mk.inj hsize
    have hw₃ := (hread _ _).ok ((hchunk _ _).ok hw hwrite) hnext
    have htotal : total = size + UInt64.ofNat chunk.length := checkedAdd_eq_ok hsum
    rcases read_ok hnext with ⟨hnil, _⟩ | ⟨_, hcons⟩
    · cases hnil
    cases hcons
    rw [readerSize, readerData]
    split at hrest
    · next hempty =>
      cases hrest
      rw [if_pos hempty, if_pos hempty, List.append_nil]
      exact ⟨htotal, hw₃⟩
    · next hdata =>
      rw [if_neg hdata, if_neg hdata, UInt64.ofNat_add, ← UInt64.add_assoc, ← htotal,
        ← List.append_assoc data]
      exact (ih _ _ _ _).ok hw₃ hrest

theorem writeChunks_stands (reader : Reader) (chunk seen : List UInt8) (size : UInt64) :
    Meets (Stands prepared folders) (ArchiveWriter.writeChunks outside reader chunk seen size)
      (fun written w => written.2 = size + UInt64.ofNat (chunk.length + readerSize reader) ∧
        Stands prepared folders w) fun _ _ => True :=
  writeChunks_meets (I := fun _ => Stands prepared folders) (fun _ => writeChunk_stands)
    (fun _ reader => stands_kept (read_keeps reader)) reader [] chunk seen size

theorem pushStreaming_stands {sizes : List UInt64} {progress : FolderProgress}
    (hcurrent : folders.current = some (sizes, progress)) (name : String) (metadata : EntryMeta)
    (size : UInt64) (checksum : UInt32) :
    Meets (Stands prepared folders) (ArchiveWriter.pushStreaming name metadata size checksum)
      (fun _ => Stands prepared ⟨folders.complete, some (sizes ++ [size], progress)⟩)
      fun _ _ => True := by
  apply Meets.of_ok
  intro w _ w' hw h
  obtain ⟨_, _, hget, h⟩ := bind_eq_ok.mp h
  cases hget
  obtain ⟨_, w₁, hnext, h⟩ := bind_eq_ok.mp h
  obtain ⟨_, w₂, hpush, h⟩ := bind_eq_ok.mp h
  have hw₁ := (stands_kept nextFolderId_keeps).ok hw hnext
  have hw₂ : Stands prepared folders w₂ := by
    cases hpush
    exact hw₁
  obtain ⟨⟨folder, completed, progress'⟩, _, hactive, h₁⟩ := bind_eq_ok.mp h
  obtain ⟨rfl, hstate⟩ := activeFolder_ok hactive
  obtain ⟨folder', w₃, hrecord, h₂⟩ := bind_eq_ok.mp h₁
  obtain ⟨hrecorded, rfl⟩ := Prod.mk.inj hrecord
  cases h₂
  obtain ⟨hopen, hafter⟩ := setActive_stands folder' progress' hw₂ hstate rfl
  rw [recordStream_sizes hrecorded] at hafter
  cases hcurrent.symm.trans hopen
  exact hafter

theorem sealStreamingFolder_stands :
    Meets (Stands prepared folders) (ArchiveWriter.sealStreamingFolder outside)
      (fun _ => Stands prepared folders.completed) fun _ _ => True := by
  apply Meets.of_ok
  intro w _ w' hw h
  obtain ⟨rfl, hfolders⟩ := stands_iff.mp hw
  rw [stands_iff]
  refine ⟨congrArg Prod.snd (sealStreamingFolder_keeps.ok h), ?_⟩
  obtain ⟨_, _, hget, h⟩ := bind_eq_ok.mp h
  cases hget
  obtain ⟨_, _, _, h⟩ := bind_eq_ok.mp h
  obtain ⟨_, _, _, h⟩ := bind_eq_ok.mp h
  obtain ⟨completed, _, hcompleted, h⟩ := bind_eq_ok.mp h
  obtain ⟨_, _, _, h⟩ := bind_eq_ok.mp h
  cases h
  cases hstate : w.state with
  | Failed =>
    rw [hstate] at hcompleted
    cases hcompleted
  | Ready before =>
    rw [hstate] at hcompleted hfolders
    cases hcompleted
    cases hfolders
    show some _ = some _
    rw [Folders.completed, Option.map_none, Option.toList_none, List.append_nil]
  | Active folder before progress =>
    rw [hstate] at hcompleted hfolders
    obtain ⟨last, _, hlast, hcompleted⟩ := bind_eq_ok.mp hcompleted
    cases hcompleted
    cases hfolders
    show some (Folders.mk ((before ++ [last]).map _) none) = _
    rw [List.map_append, List.map_singleton, (complete_files hlast).2]
    rfl

theorem appendStreaming_preplanned {sizes : List UInt64} {progress : FolderProgress}
    (hopened : folders.opened.current = some (sizes, progress)) (name : String) (reader : Reader)
    (metadata : EntryMeta) (folderSize : UInt64) :
    Meets (Stands prepared folders)
      (ArchiveWriter.appendStreaming outside name reader metadata (.Preplanned folderSize))
      (fun _ => Stands prepared
        ⟨folders.complete, some (sizes ++ [UInt64.ofNat (readerSize reader)], progress)⟩)
      fun _ _ => True := by
  apply Meets.of_ok
  intro w _ w' hw h
  obtain ⟨first, w₁, hread, hrest⟩ := bind_eq_ok.mp h
  have hw₁ := (stands_kept (read_keeps reader)).ok hw hread
  split at hrest
  · next hempty =>
    obtain ⟨_, w₂, hensure, hpush⟩ := bind_eq_ok.mp hrest
    have hw₂ := (ensureStreamingFolder_stands _).ok hw₁ hensure
    rw [readerSize_read hread, if_pos hempty]
    exact (pushStreaming_stands hopened _ _ _ _).ok hw₂ hpush
  · next hdata =>
    obtain ⟨_, w₂, hensure, hrest⟩ := bind_eq_ok.mp hrest
    obtain ⟨⟨data, size⟩, w₃, hwrite, hrest⟩ := bind_eq_ok.mp hrest
    obtain ⟨_, w₄, hpush, hrest⟩ := bind_eq_ok.mp hrest
    cases hrest
    have hw₂ := (ensureStreamingFolder_stands _).ok hw₁ hensure
    obtain ⟨hsize, hw₃⟩ := (writeChunks_stands _ _ _ _).ok hw₂ hwrite
    have htotal : size = UInt64.ofNat (readerSize reader) := by
      rw [readerSize_read hread, if_neg hdata]
      exact hsize.trans (UInt64.zero_add _)
    subst htotal
    exact (pushStreaming_stands hopened _ _ _ _).ok hw₃ hpush

end

/-! The pieces of a slice -/

theorem toChunks_go {α : Type} (n : ℕ) : ∀ (xs : List α) (piece : Array α) (pieces : Array (List α)),
    piece.toList ≠ [] → ∃ chunks, List.toChunks.go n xs piece pieces = pieces.toList ++ chunks ∧
      (∀ chunk ∈ chunks, chunk ≠ []) ∧ chunks.flatten = piece.toList ++ xs
  | [], piece, pieces, hpiece => by
    refine ⟨[piece.toList], ?_, ?_, by simp⟩
    · rw [List.toChunks.go, Array.toList_push]
    · simpa using hpiece
  | x :: xs, piece, pieces, hpiece => by
    rw [List.toChunks.go]
    split
    · obtain ⟨chunks, hgo, hne, hflat⟩ := toChunks_go n xs #[x] (pieces.push piece.toList) (by simp)
      refine ⟨piece.toList :: chunks, ?_, ?_, ?_⟩
      · simpa using hgo
      · simpa [hpiece] using hne
      · simpa using hflat
    · obtain ⟨chunks, hgo, hne, hflat⟩ := toChunks_go n xs (piece.push x) pieces (by simp)
      exact ⟨chunks, hgo, hne, by simpa using hflat⟩

theorem toChunks_spec {α : Type} (n : ℕ) (xs : List α) :
    (∀ chunk ∈ xs.toChunks n, chunk ≠ []) ∧ (xs.toChunks n).flatten = xs := by
  cases xs with
  | nil =>
    cases n <;> simp [List.toChunks]
  | cons x xs =>
    cases n with
    | zero => simp [List.toChunks]
    | succ n =>
      obtain ⟨chunks, hgo, hne, hflat⟩ := toChunks_go (n + 1) xs #[x] #[] (by simp)
      rw [List.toChunks, hgo]
      · exact ⟨by simpa using hne, by simpa using hflat⟩
      · exact Nat.succ_ne_zero n

theorem readerData_chunks : ∀ {chunks : List (List UInt8)}, (∀ chunk ∈ chunks, chunk ≠ []) →
    readerData (chunks.map .ok) = chunks.flatten
  | [], _ => rfl
  | chunk :: chunks, h => by
    obtain ⟨hchunk, hrest⟩ := List.forall_mem_cons.mp h
    rw [List.map_cons, readerData, if_neg (by simpa using hchunk), readerData_chunks hrest,
      List.flatten_cons]

theorem readerData_slice (prepared : PreparedArchiveOptions) (data : List UInt8) :
    readerData (ArchiveWriter.sliceReader prepared data) = data := by
  obtain ⟨hne, hflat⟩ := toChunks_spec prepared.bufferSize data
  rw [ArchiveWriter.sliceReader, readerData_chunks hne, hflat]

theorem readerSize_slice (prepared : PreparedArchiveOptions) (data : List UInt8) :
    readerSize (ArchiveWriter.sliceReader prepared data) = data.length := by
  rw [← readerData_length, readerData_slice]

section
variable {outside : Outside} {prepared : PreparedArchiveOptions} {folders : Folders}

end

end Write

end R7z
