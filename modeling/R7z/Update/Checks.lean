import R7z.EntryTraversal
import R7z.Update.Preserved

/-! What the checks of an update rest on, and what they leave of it: an update that does not fit its
source is refused before the output is touched, and one that goes through copies whole folders. -/

namespace R7z

open Wire Effect Effect.Machine

namespace Write

/-! Which errors can come from where -/

/-- The two errors that say that an update does not fit its source. -/
def Rejection (e : R7zError) : Prop := e = .archiveMismatch ∨ e = .invalidRawFolderLayout

instance (e : R7zError) : Decidable (Rejection e) := inferInstanceAs (Decidable (_ ∨ _))

/-- Nothing outside the writer reports a rejection: an output, an encoder or a budget has errors of
its own. -/
def Outside.Honest (outside : Outside) : Prop :=
  ∀ call fault, outside.fault call = some fault → ¬Rejection fault.error

def HonestReader (reader : Reader) : Prop := ∀ e, .error e ∈ reader → ¬Rejection e

def HonestFile (file : Except R7zError Reader) : Prop :=
  match file with
  | .error e => ¬Rejection e
  | .ok reader => HonestReader reader

def HonestEntry (entry : PreservedArchiveEntry) : Prop :=
  match entry.stream with
  | .Path file _ => HonestFile file
  | _ => True

section
variable {outside : Outside}

abbrev Harmless {α : Type} (m : WriterM α) : Prop := Fails (fun e => ¬Rejection e) m

theorem checkedAdd_harmless {error : R7zError} (herror : ¬Rejection error) (a b : UInt64) :
    ∀ e, checkedAdd error a b = .error e → ¬Rejection e := by
  intro e h
  unfold checkedAdd at h
  split at h
  · cases h
  · cases h
    exact herror

theorem nextFault_bind {α : Type} (f : Option Fault → WriterM α) (s : ArchiveWriter) :
    (nextFault outside >>= f) s =
      f (outside.fault s.clock) { s with clock := s.clock + 1 } := rfl

theorem external_harmless (hout : outside.Honest) : Harmless (external outside) := by
  intro s e s' h
  unfold external at h
  rw [nextFault_bind] at h
  cases hfault : outside.fault s.clock with
  | none => rw [hfault] at h; cases h
  | some fault =>
    rw [hfault] at h
    cases h
    exact hout _ fault hfault

theorem writeAll_harmless (hout : outside.Honest) (bytes : List UInt8) :
    Harmless (writeAll outside bytes) := by
  unfold writeAll
  split
  · exact Fails.pure _
  · intro s e s' h
    rw [nextFault_bind] at h
    cases hfault : outside.fault s.clock with
    | none => rw [hfault] at h; cases h
    | some fault =>
      rw [hfault] at h
      cases h
      exact hout _ fault hfault

theorem seek_harmless (hout : outside.Honest) (position : ℕ) : Harmless (seek outside position) :=
  (external_harmless hout).bind fun _ => Fails.modify _

theorem countedWrite_harmless (hout : outside.Honest) (count : UInt64) (bytes : List UInt8) :
    Harmless (countedWrite outside count bytes) :=
  (writeAll_harmless hout bytes).bind fun _ => Fails.ofExcept (checkedAdd_harmless (by decide) _ _)

theorem makeAesMaterial_harmless (hout : outside.Honest) (encryption : PreparedEncryption) :
    Harmless (makeAesMaterial outside encryption) := by
  have hrandom (n : ℕ) : Harmless (randomBytes outside n) :=
    (external_harmless hout).bind fun _ => Fails.get.bind fun _ => Fails.pure _
  exact (hrandom _).bind fun _ => (hrandom _).bind fun _ =>
    (external_harmless hout).bind fun _ => Fails.pure _

theorem payload_new_harmless (hout : outside.Honest) (prepared : PreparedArchiveOptions) :
    Harmless (PayloadWriter.new outside prepared) := by
  unfold PayloadWriter.new
  cases prepared.encryption with
  | none => exact Fails.pure _
  | some encryption => exact (makeAesMaterial_harmless hout encryption).bind fun _ => Fails.pure _

theorem payload_write_harmless (hout : outside.Honest) (writer : PayloadWriter) (bytes : List UInt8) :
    Harmless (writer.write outside bytes) := by
  cases writer with
  | Plain count => exact (countedWrite_harmless hout _ _).bind fun _ => Fails.pure _
  | Aes key iv props plaintextSize pieces count =>
    exact (Fails.ofExcept (checkedAdd_harmless (by decide) _ _)).bind fun _ =>
      (countedWrite_harmless hout _ _).bind fun _ => Fails.pure _

theorem payload_finish_harmless (hout : outside.Honest) (writer : PayloadWriter) :
    Harmless (writer.finish outside) := by
  cases writer with
  | Plain count => exact Fails.pure _
  | Aes key iv props plaintextSize pieces count =>
    exact (countedWrite_harmless hout _ _).bind fun _ => Fails.pure _

theorem folder_encoded_harmless (hout : outside.Honest) (knownSize : Option UInt64)
    (prepared : PreparedArchiveOptions) :
    Harmless (StreamingFolder.encoded outside knownSize prepared) :=
  (external_harmless hout).bind fun _ => (payload_new_harmless hout prepared).bind fun _ =>
    (external_harmless hout).bind fun _ => Fails.pure _

theorem folder_write_harmless (hout : outside.Honest) (prepared : PreparedArchiveOptions)
    (folder : StreamingFolder) (bytes : List UInt8) :
    Harmless (folder.write outside prepared bytes) := by
  refine (external_harmless hout).bind fun _ => Fails.bind ?_ fun _ => Fails.pure _
  cases folder.encoder with
  | Raw => exact (countedWrite_harmless hout _ _).bind fun _ => Fails.pure _
  | Copy => exact (payload_write_harmless hout _ _).bind fun _ => Fails.pure _
  | Lzma2 => exact (payload_write_harmless hout _ _).bind fun _ => Fails.pure _
  | Lzma => exact (payload_write_harmless hout _ _).bind fun _ => Fails.pure _
  | Ppmd => exact (payload_write_harmless hout _ _).bind fun _ => Fails.pure _
  | BcjLzma2 => exact (payload_write_harmless hout _ _).bind fun _ => Fails.pure _

theorem lzma2PropertyByte_harmless (prepared : PreparedArchiveOptions) :
    ∀ e, lzma2PropertyByte prepared = .error e → ¬Rejection e := by
  intro e h
  unfold lzma2PropertyByte encodeLzma2DictSize at h
  split at h
  · cases h
    decide
  · split at h
    · cases h
    · dsimp only at h
      split at h
      · cases h
      · cases h
        decide

theorem folder_complete_harmless (hout : outside.Honest) (folder : StreamingFolder)
    (prepared : PreparedArchiveOptions) : Harmless (folder.complete outside prepared) := by
  have hpayload (writer : PayloadWriter) (coderInfo : List UInt8) (sizes : List UInt64)
      (specs : List CoderSpec) :
      Harmless (StreamingFolder.finishPayload outside writer coderInfo sizes specs) := by
    refine (payload_finish_harmless hout writer).bind fun ⟨_, encrypted⟩ => ?_
    cases encrypted <;> exact Fails.pure _
  have hclose (writer : PayloadWriter) (encoder : Encoder) (chunks : List (List UInt8)) :
      Harmless (StreamingFolder.closeInto outside writer encoder chunks) :=
    (external_harmless hout).bind fun _ => payload_write_harmless hout _ _
  have hproperty : Harmless (Machine.ofExcept (lzma2PropertyByte prepared) : WriterM UInt8) :=
    Fails.ofExcept (lzma2PropertyByte_harmless prepared)
  unfold StreamingFolder.complete
  cases folder.encoder with
  | Raw => exact Fails.pure _
  | Copy => exact (hpayload _ _ _ _).bind fun _ => Fails.pure _
  | Lzma2 =>
    exact hproperty.bind fun _ => (hclose _ _ _).bind fun _ => (hpayload _ _ _ _).bind
      fun _ => Fails.pure _
  | Lzma => exact (hclose _ _ _).bind fun _ => (hpayload _ _ _ _).bind fun _ => Fails.pure _
  | Ppmd => exact (hclose _ _ _).bind fun _ => (hpayload _ _ _ _).bind fun _ => Fails.pure _
  | BcjLzma2 =>
    exact (hclose _ _ _).bind fun _ => hproperty.bind fun _ => (hpayload _ _ _ _).bind
      fun _ => Fails.pure _

theorem mapM_error {α β : Type} {f : α → Except R7zError β} {e : R7zError} :
    ∀ {xs : List α}, xs.mapM f = .error e → ∃ x ∈ xs, f x = .error e
  | [], h => by cases h
  | x :: xs, h => by
    rw [List.mapM_cons] at h
    cases hx : f x with
    | error e' =>
      rw [hx] at h
      cases h
      exact ⟨x, List.mem_cons_self, hx⟩
    | ok y =>
      rw [hx] at h
      cases hxs : xs.mapM f with
      | error e' =>
        rw [ok_bind, hxs] at h
        cases h
        obtain ⟨x', hx', hf⟩ := mapM_error hxs
        exact ⟨x', List.mem_cons_of_mem _ hx', hf⟩
      | ok ys =>
        rw [ok_bind, hxs] at h
        cases h

theorem foldlM_checkedAddU64_error {e : R7zError} :
    ∀ {sizes : List UInt64} {total : UInt64}, sizes.foldlM checkedAddU64 total = .error e →
      ¬Rejection e
  | [], _, h => by cases h
  | size :: sizes, total, h => by
    rw [List.foldlM_cons] at h
    cases hadd : checkedAddU64 total size with
    | error e' =>
      rw [hadd] at h
      cases h
      exact checkedAdd_harmless (by decide) _ _ _ hadd
    | ok total' =>
      rw [hadd] at h
      exact foldlM_checkedAddU64_error h

def HonestStaged (entry : StagedEntry) : Prop :=
  match entry.stream with
  | .Folder _ (.Path file _) => HonestFile file
  | _ => True

theorem reader_mapM_harmless {reader : Reader} (h : HonestReader reader) :
    ∀ e, reader.mapM id = .error e → ¬Rejection e := by
  intro e he
  obtain ⟨x, hx, rfl⟩ := mapM_error he
  exact h e hx

theorem stagedStreamCrc_harmless {entry : StagedEntry} (h : HonestStaged entry) :
    ∀ e, stagedStreamCrc outside entry = .error e → ¬Rejection e := by
  intro e he
  unfold stagedStreamCrc at he
  unfold HonestStaged at h
  cases hstream : entry.stream with
  | None => rw [hstream] at he; cases he
  | Folder folder data =>
    rw [hstream] at he h
    cases data with
    | Raw => cases he
    | Data => cases he
    | Path file size =>
      cases file with
      | error e' =>
        cases he
        exact h
      | ok reader =>
        cases hread : reader.mapM id with
        | error e' =>
          have he : (reader.mapM id >>= fun chunks =>
            Except.ok (some (outside.crc32 chunks.flatten))) = .error e := he
          rw [hread] at he
          cases he
          exact reader_mapM_harmless h _ hread
        | ok chunks =>
          have he : (reader.mapM id >>= fun chunks =>
            Except.ok (some (outside.crc32 chunks.flatten))) = .error e := he
          rw [hread] at he
          cases he

theorem folderFile_harmless {entries : List StagedEntry} (h : ∀ entry ∈ entries, HonestStaged entry)
    (index : WriteEntryIndex) : ∀ e, folderFile outside entries index = .error e → ¬Rejection e := by
  intro e he
  unfold folderFile at he
  cases hentry : entries[index]? with
  | none =>
    rw [hentry] at he
    cases he
    decide
  | some entry =>
    rw [hentry] at he
    cases hcrc : stagedStreamCrc outside entry with
    | error e' =>
      dsimp only at he
      rw [hcrc] at he
      cases he
      exact stagedStreamCrc_harmless (h entry (List.mem_of_getElem? hentry)) _ hcrc
    | ok crc =>
      dsimp only at he
      rw [hcrc] at he
      cases he

theorem stagedDataEntry_harmless (prepared : PreparedArchiveOptions) (entries : List StagedEntry)
    (index : WriteEntryIndex) :
    ∀ e, stagedDataEntry prepared entries index = .error e → ¬Rejection e := by
  intro e he
  unfold stagedDataEntry stagedReader at he
  repeat' split at he
  all_goals
    cases he
    try decide

theorem sliceReader_honest (prepared : PreparedArchiveOptions) (data : List UInt8) :
    HonestReader (ArchiveWriter.sliceReader prepared data) := by
  intro e he
  obtain ⟨_, _, h⟩ := List.mem_map.mp he
  cases h

theorem stagedReader_honest {prepared : PreparedArchiveOptions} {entry : StagedEntry}
    (h : HonestStaged entry) {size : UInt64} {file : Except R7zError Reader}
    (hok : stagedReader prepared entry = .ok (size, file)) : HonestFile file := by
  unfold stagedReader at hok
  unfold HonestStaged at h
  cases hstream : entry.stream with
  | None => rw [hstream] at hok; cases hok
  | Folder folder data =>
    rw [hstream] at hok h
    cases data with
    | Raw => cases hok
    | Data data =>
      cases hok
      exact sliceReader_honest prepared data
    | Path file' size' =>
      cases hok
      exact h

theorem stagedDataEntry_honest {prepared : PreparedArchiveOptions} {entries : List StagedEntry}
    (h : ∀ entry ∈ entries, HonestStaged entry) {index : WriteEntryIndex}
    {row : UInt64 × WriteEntryIndex × Except R7zError Reader}
    (hok : stagedDataEntry prepared entries index = .ok row) : HonestFile row.2.2 := by
  unfold stagedDataEntry at hok
  cases hentry : entries[index]? with
  | none => rw [hentry] at hok; cases hok
  | some entry =>
    rw [hentry] at hok
    dsimp only at hok
    cases hreader : stagedReader prepared entry with
    | error e => rw [hreader] at hok; cases hok
    | ok reader =>
      rw [hreader] at hok
      cases hok
      exact stagedReader_honest (h entry (List.mem_of_getElem? hentry)) hreader

theorem source_of_mapM {α β : Type} {f : α → Except R7zError β} :
    ∀ {xs : List α} {ys : List β}, xs.mapM f = .ok ys → ∀ y ∈ ys, ∃ x ∈ xs, f x = .ok y
  | [], ys, h, y, hy => by
    cases h
    cases hy
  | x :: xs, ys, h, y', hy => by
    rw [List.mapM_cons] at h
    obtain ⟨y, hfirst, h⟩ := except_bind_eq_ok.mp h
    obtain ⟨rest, hrest, h⟩ := except_bind_eq_ok.mp h
    cases h
    rcases List.mem_cons.mp hy with rfl | hy
    · exact ⟨x, List.mem_cons_self, hfirst⟩
    · obtain ⟨x', hx', hf⟩ := source_of_mapM hrest y' hy
      exact ⟨x', List.mem_cons_of_mem _ hx', hf⟩

theorem forall_of_mapM {α β : Type} {f : α → Except R7zError β} {P : β → Prop}
    (hf : ∀ x y, f x = .ok y → P y) {xs : List α} {ys : List β} (h : xs.mapM f = .ok ys) : ∀ y ∈ ys, P y := by
  intro y hy
  obtain ⟨x, -, hx⟩ := source_of_mapM h y hy
  exact hf x y hx

theorem writePacked_harmless (hout : outside.Honest) (prepared : PreparedArchiveOptions)
    (packed : List UInt8) (count : UInt64) :
    Harmless (writePacked outside prepared packed count) := by
  unfold writePacked
  generalize packed.toChunks prepared.bufferSize = chunks
  induction chunks generalizing count with
  | nil => exact Fails.pure count
  | cons chunk chunks ih =>
    rw [List.foldlM_cons]
    refine Fails.bind ?_ fun count => ih count
    exact (external_harmless hout).bind fun _ => (countedWrite_harmless hout _ _).bind fun _ =>
      (external_harmless hout).bind fun _ => Fails.pure _

theorem writePackedStreams_harmless (hout : outside.Honest) (prepared : PreparedArchiveOptions) :
    ∀ (streams : List (List UInt8 × UInt64)) (count : UInt64),
      Harmless (writePackedStreams outside prepared streams count)
  | [], count => Fails.pure count
  | (packed, size) :: rest, count => by
    unfold writePackedStreams
    split
    · exact Fails.fail (by decide)
    · exact (writePacked_harmless hout prepared packed count).bind fun count =>
        writePackedStreams_harmless hout prepared rest count

theorem folder_raw_harmless {entries : List StagedEntry}
    (hentries : ∀ entry ∈ entries, HonestStaged entry) (hout : outside.Honest) (prepared : PreparedArchiveOptions)
    (raw : RawFolderBlock) (fileIndices : List WriteEntryIndex) :
    Harmless (StreamingFolder.raw outside prepared raw entries fileIndices) := by
  refine (external_harmless hout).bind fun _ => ?_
  split
  · exact Fails.fail (by decide)
  · refine (writePackedStreams_harmless hout prepared _ _).bind fun _ => Fails.bind ?_
      fun _ => Fails.pure _
    refine Fails.ofExcept fun e he => ?_
    obtain ⟨index, -, hindex⟩ := mapM_error he
    exact folderFile_harmless hentries index e hindex

theorem read_harmless (hout : outside.Honest) {reader : Reader} (h : HonestReader reader) :
    Harmless (ArchiveWriter.read outside reader) := by
  refine (external_harmless hout).bind fun _ => ?_
  cases reader with
  | nil => exact (external_harmless hout).bind fun _ => Fails.pure _
  | cons chunk reader =>
    cases chunk with
    | error e => exact Fails.fail (h e List.mem_cons_self)
    | ok chunk => exact (external_harmless hout).bind fun _ => Fails.pure _

theorem writeStagedReader_harmless (hout : outside.Honest) (prepared : PreparedArchiveOptions) :
    ∀ (reader : Reader), HonestReader reader → ∀ folder seen size,
      Harmless (writeStagedReader outside prepared reader folder seen size)
  | [], h, folder, seen, size => by
    unfold writeStagedReader
    exact (read_harmless hout h).bind fun _ => Fails.pure _
  | chunk :: reader, h, folder, seen, size => by
    have hrest : HonestReader reader := fun e he => h e (List.mem_cons_of_mem _ he)
    unfold writeStagedReader
    refine (read_harmless hout h).bind fun chunk => ?_
    dsimp only
    split
    · exact Fails.pure _
    · refine (folder_write_harmless hout prepared folder chunk).bind fun folder => ?_
      exact (Fails.ofExcept (checkedAdd_harmless (by decide) _ _)).bind fun size =>
        writeStagedReader_harmless hout prepared reader hrest folder _ size

theorem recordStream_harmless (folder : StreamingFolder) (index : WriteEntryIndex) (size : UInt64)
    (checksum : UInt32) :
    ∀ e, folder.recordStream index size checksum = .error e → ¬Rejection e := by
  intro e he
  cases hadd : checkedAddU64 folder.unpackSize size with
  | error e' =>
    have herror := checkedAdd_harmless (by decide) _ _ _ hadd
    unfold StreamingFolder.recordStream at he
    split at he
    · cases he
      decide
    · rw [hadd] at he
      cases he
      exact herror
  | ok total =>
    unfold StreamingFolder.recordStream at he
    split at he
    · cases he
      decide
    · rw [hadd] at he
      cases he

theorem writeStagedEntries_harmless (hout : outside.Honest) (prepared : PreparedArchiveOptions) :
    ∀ (rows : List (WriteEntryIndex × Except R7zError Reader)), (∀ row ∈ rows, HonestFile row.2) →
      ∀ folder, Harmless (writeStagedEntries outside prepared rows folder)
  | [], _, folder => Fails.pure folder
  | (index, file) :: rest, h, folder => by
    obtain ⟨hfile, hrest⟩ := List.forall_mem_cons.mp h
    unfold writeStagedEntries
    cases file with
    | error e =>
      refine Fails.ofExcept_bind (fun e' he => ?_) fun _ hok => by cases hok
      cases he
      exact hfile
    | ok reader =>
      refine Fails.ofExcept_bind (fun _ he => by cases he) fun reader' hok => ?_
      cases hok
      refine (writeStagedReader_harmless hout prepared reader hfile folder [] 0).bind
        fun ⟨folder, size, checksum⟩ => ?_
      exact (Fails.ofExcept (recordStream_harmless folder index size checksum)).bind fun folder =>
        writeStagedEntries_harmless hout prepared rest hrest folder

theorem writeEncodedFolder_harmless {entries : List StagedEntry}
    (hentries : ∀ entry ∈ entries, HonestStaged entry) (hout : outside.Honest)
    (prepared : PreparedArchiveOptions) (fileIndices : List WriteEntryIndex) :
    Harmless (writeEncodedFolderStreaming outside prepared entries fileIndices) := by
  refine Fails.ofExcept_bind (fun e he => ?_) fun rows hrows => ?_
  · obtain ⟨index, -, hindex⟩ := mapM_error he
    exact stagedDataEntry_harmless prepared entries index e hindex
  · have hfiles : ∀ row ∈ rows.map Prod.snd, HonestFile row.2 := by
      intro row hrow
      obtain ⟨row, hmem, rfl⟩ := List.mem_map.mp hrow
      exact forall_of_mapM (fun _ _ => stagedDataEntry_honest hentries) hrows row hmem
    refine (Fails.ofExcept fun e he => foldlM_checkedAddU64_error he).bind fun knownSize => ?_
    refine (folder_encoded_harmless hout _ prepared).bind fun folder => ?_
    refine (writeStagedEntries_harmless hout prepared _ hfiles folder).bind fun folder => ?_
    exact folder_complete_harmless hout folder prepared

theorem writeStagedFolders_harmless {entries : List StagedEntry}
    (hentries : ∀ entry ∈ entries, HonestStaged entry) (hout : outside.Honest)
    (prepared : PreparedArchiveOptions) (rawFolders : List RawFolderBlock) :
    ∀ ids, Harmless (writeStagedFolders outside prepared rawFolders entries ids)
  | [] => Fails.pure _
  | folder :: folders => by
    have hfirst : Harmless (writeStagedFolder outside prepared rawFolders entries folder) := by
      unfold writeStagedFolder
      cases rawById rawFolders folder with
      | none => exact writeEncodedFolder_harmless hentries hout prepared _
      | some raw =>
        exact (folder_raw_harmless hentries hout prepared raw _).bind fun folder =>
          folder_complete_harmless hout folder prepared
    exact hfirst.bind fun _ =>
      (writeStagedFolders_harmless hentries hout prepared rawFolders folders).bind
        fun _ => Fails.pure _

theorem packedSize_harmless (folders : List CompletedFolder) :
    ∀ e, packedSize folders = .error e → ¬Rejection e := by
  intro e he
  unfold packedSize at he
  generalize (0 : UInt64) = total at he
  induction folders generalizing total with
  | nil => cases he
  | cons folder folders ih =>
    rw [List.foldlM_cons] at he
    cases hsum : checkedSum folder.packSizes with
    | error e' =>
      rw [hsum] at he
      cases he
      exact foldlM_checkedAddU64_error hsum
    | ok size =>
      rw [hsum, ok_bind] at he
      cases hadd : checkedAddU64 total size with
      | error e' =>
        rw [hadd] at he
        cases he
        exact checkedAdd_harmless (by decide) _ _ _ hadd
      | ok total' =>
        rw [hadd] at he
        exact ih total' he

theorem encodeHeaderStream_harmless (hout : outside.Honest) (rawHeader : List UInt8)
    (prepared : PreparedArchiveOptions) :
    Harmless (encodeHeaderStream outside rawHeader prepared) := by
  refine (external_harmless hout).bind fun _ => ?_
  dsimp only
  split
  · exact Fails.pure _
  · exact (makeAesMaterial_harmless hout _).bind fun _ => (external_harmless hout).bind
      fun _ => Fails.pure _

theorem finishStreamedArchive_harmless (hout : outside.Honest) (entries : List WriteEntry)
    (folders : List CompletedFolder) (prepared : PreparedArchiveOptions) :
    Harmless (finishStreamedArchive outside entries folders prepared) := by
  refine (external_harmless hout).bind fun _ => ?_
  refine (Fails.ofExcept (packedSize_harmless folders)).bind fun size => ?_
  have hplace : Harmless (placeHeader outside (buildHeader entries folders) size entries.length
      prepared) := by
    refine Fails.ite ?_ (Fails.pure _)
    exact (encodeHeaderStream_harmless hout _ _).bind fun _ => (seek_harmless hout _).bind
      fun _ => (writeAll_harmless hout _).bind fun _ => Fails.pure _
  refine hplace.bind fun ⟨nextHeader, nextHeaderOffset⟩ => ?_
  refine (seek_harmless hout _).bind fun _ => (writeAll_harmless hout _).bind fun _ => ?_
  refine (seek_harmless hout _).bind fun _ => (writeAll_harmless hout _).bind fun _ => ?_
  exact (external_harmless hout).bind fun _ => external_harmless hout

theorem writeStaged_harmless (hout : outside.Honest) (prepared : PreparedArchiveOptions)
    (rawFolders : List RawFolderBlock) {staged : StagedPreserved}
    (hentries : ∀ entry ∈ staged.entries, HonestStaged entry) :
    Harmless (writeStaged outside prepared rawFolders staged) := by
  refine (seek_harmless hout _).bind fun _ => (writeAll_harmless hout _).bind fun _ => ?_
  exact (writeStagedFolders_harmless hentries hout prepared rawFolders _).bind fun _ =>
    finishStreamedArchive_harmless hout _ _ prepared

end

end Write

end R7z
