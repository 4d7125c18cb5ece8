import R7z.Write.Builder

/-! What the calls to the outside leave alone: all of the writer but its output and its clock. -/

namespace R7z

open Effect Effect.Machine Write

theorem checkedAdd_eq_ok {error : R7zError} {a b c : UInt64} (h : checkedAdd error a b = .ok c) :
    c = a + b := by
  unfold checkedAdd at h
  split at h
  · exact (Except.ok.inj h).symm
  · cases h

section
variable {outside : Outside} {τ : Type} {part : ArchiveWriter → τ}

theorem nextFolderId_keeps : Keeps part ArchiveWriter.nextFolderId := by
  refine Keeps.get.bind fun w => ?_
  cases w.state with
  | Ready => exact Keeps.pure _
  | Active => exact Keeps.pure _
  | Failed => exact Keeps.fail _

/-- A relation between a writer and a later one that is kept by what goes to the output, and by asking the
outside. -/
class Outward (R : ArchiveWriter → ArchiveWriter → Prop) : Prop extends Std.Refl R, IsTrans ArchiveWriter R where
  clock : ∀ w clock, R w { w with clock }
  write : ∀ w bytes, R w { w with output := w.output.write bytes }

section
variable {R : ArchiveWriter → ArchiveWriter → Prop} [Outward R]

theorem nextFault_moves : Moves R (nextFault outside) := fun w => Outward.clock w _

theorem external_moves : Moves R (external outside) := by
  refine nextFault_moves.bind fun fault => ?_
  cases fault with
  | none => exact Moves.pure _
  | some fault => exact Moves.fail _

theorem writeAll_moves (bytes : List UInt8) : Moves R (writeAll outside bytes) := by
  have hwrite (bytes : List UInt8) :
      Moves R (modify fun w => { w with output := w.output.write bytes } : WriterM Unit) :=
    Moves.modify fun w => Outward.write w bytes
  unfold writeAll
  split
  · exact Moves.pure _
  · refine nextFault_moves.bind fun fault => ?_
    cases fault with
    | none => exact hwrite bytes
    | some fault => exact (hwrite _).bind fun _ => Moves.fail _

theorem randomBytes_moves (n : ℕ) : Moves R (randomBytes outside n) :=
  external_moves.bind fun _ => Moves.get.bind fun _ => Moves.pure _

theorem makeAesMaterial_moves (encryption : PreparedEncryption) :
    Moves R (makeAesMaterial outside encryption) :=
  (randomBytes_moves _).bind fun _ => (randomBytes_moves _).bind fun _ =>
    external_moves.bind fun _ => Moves.pure _

theorem countedWrite_moves (count : UInt64) (bytes : List UInt8) :
    Moves R (countedWrite outside count bytes) :=
  (writeAll_moves bytes).bind fun _ => Moves.ofExcept _

theorem payload_new_moves (prepared : PreparedArchiveOptions) :
    Moves R (PayloadWriter.new outside prepared) := by
  unfold PayloadWriter.new
  cases prepared.encryption with
  | none => exact Moves.pure _
  | some encryption => exact (makeAesMaterial_moves encryption).bind fun _ => Moves.pure _

theorem payload_write_moves (writer : PayloadWriter) (bytes : List UInt8) :
    Moves R (writer.write outside bytes) := by
  cases writer with
  | Plain count => exact (countedWrite_moves _ _).bind fun _ => Moves.pure _
  | Aes key iv props plaintextSize pieces count =>
    exact (Moves.ofExcept _).bind fun _ => (countedWrite_moves _ _).bind fun _ => Moves.pure _

theorem payload_finish_moves (writer : PayloadWriter) : Moves R (writer.finish outside) := by
  cases writer with
  | Plain count => exact Moves.pure _
  | Aes key iv props plaintextSize pieces count =>
    exact (countedWrite_moves _ _).bind fun _ => Moves.pure _

theorem folder_encoded_moves (knownSize : Option UInt64) (prepared : PreparedArchiveOptions) :
    Moves R (StreamingFolder.encoded outside knownSize prepared) :=
  external_moves.bind fun _ => (payload_new_moves prepared).bind fun _ =>
    external_moves.bind fun _ => Moves.pure _

theorem folder_write_moves (prepared : PreparedArchiveOptions) (folder : StreamingFolder)
    (bytes : List UInt8) : Moves R (folder.write outside prepared bytes) := by
  refine external_moves.bind fun _ => Moves.bind ?_ fun _ => Moves.pure _
  cases folder.encoder with
  | Raw => exact (countedWrite_moves _ _).bind fun _ => Moves.pure _
  | Copy => exact (payload_write_moves _ _).bind fun _ => Moves.pure _
  | Lzma2 => exact (payload_write_moves _ _).bind fun _ => Moves.pure _
  | Lzma => exact (payload_write_moves _ _).bind fun _ => Moves.pure _
  | Ppmd => exact (payload_write_moves _ _).bind fun _ => Moves.pure _
  | BcjLzma2 => exact (payload_write_moves _ _).bind fun _ => Moves.pure _

theorem finishPayload_moves (writer : PayloadWriter) (coderInfo : List UInt8) (sizes : List UInt64)
    (specs : List CoderSpec) :
    Moves R (StreamingFolder.finishPayload outside writer coderInfo sizes specs) := by
  refine (payload_finish_moves writer).bind fun ⟨_, encrypted⟩ => ?_
  cases encrypted <;> exact Moves.pure _

theorem closeInto_moves (writer : PayloadWriter) (encoder : Encoder) (chunks : List (List UInt8)) :
    Moves R (StreamingFolder.closeInto outside writer encoder chunks) :=
  external_moves.bind fun _ => payload_write_moves _ _

theorem folder_complete_moves (folder : StreamingFolder) (prepared : PreparedArchiveOptions) :
    Moves R (folder.complete outside prepared) := by
  unfold StreamingFolder.complete
  cases folder.encoder with
  | Raw => exact Moves.pure _
  | Copy => exact (finishPayload_moves _ _ _ _).bind fun _ => Moves.pure _
  | Lzma2 =>
    exact (Moves.ofExcept _).bind fun _ => (closeInto_moves _ _ _).bind fun _ =>
      (finishPayload_moves _ _ _ _).bind fun _ => Moves.pure _
  | Lzma => exact (closeInto_moves _ _ _).bind fun _ =>
      (finishPayload_moves _ _ _ _).bind fun _ => Moves.pure _
  | Ppmd => exact (closeInto_moves _ _ _).bind fun _ =>
      (finishPayload_moves _ _ _ _).bind fun _ => Moves.pure _
  | BcjLzma2 =>
    exact (closeInto_moves _ _ _).bind fun _ => (Moves.ofExcept _).bind fun _ =>
      (finishPayload_moves _ _ _ _).bind fun _ => Moves.pure _

theorem completedFolders_moves (prepared : PreparedArchiveOptions) (state : WriterState) :
    Moves R (ArchiveWriter.completedFolders outside prepared state) := by
  cases state with
  | Ready => exact Moves.pure _
  | Active => exact (folder_complete_moves _ _).bind fun _ => Moves.pure _
  | Failed => exact Moves.fail _

theorem read_moves (reader : Reader) : Moves R (ArchiveWriter.read outside reader) := by
  refine external_moves.bind fun _ => ?_
  split
  · exact Moves.fail _
  · exact external_moves.bind fun _ => Moves.pure _
  · exact external_moves.bind fun _ => Moves.pure _

end

/-- A relation that does not look at the state either. -/
class Stateless (R : ArchiveWriter → ArchiveWriter → Prop) : Prop extends Outward R where
  state : ∀ w state, R w { w with state }

section
variable {R : ArchiveWriter → ArchiveWriter → Prop} [Stateless R]

theorem setState_moves (state : WriterState) : Moves R (setState state) :=
  Moves.modify fun w => Stateless.state w state

theorem activeFolder_moves : Moves R ArchiveWriter.activeFolder := by
  refine Moves.get.bind fun w => ?_
  cases w.state with
  | Ready => exact Moves.fail _
  | Active => exact Moves.pure _
  | Failed => exact Moves.fail _

theorem nextFolderId_moves : Moves R ArchiveWriter.nextFolderId := by
  refine Moves.get.bind fun w => ?_
  cases w.state with
  | Ready => exact Moves.pure _
  | Active => exact Moves.pure _
  | Failed => exact Moves.fail _

theorem sealStreamingFolder_moves : Moves R (ArchiveWriter.sealStreamingFolder outside) :=
  Moves.get.bind fun _ => (setState_moves _).bind fun _ => external_moves.bind fun _ =>
    (completedFolders_moves _ _).bind fun _ => external_moves.bind fun _ => setState_moves _

theorem recordStream_moves (entryIndex : WriteEntryIndex) (size : UInt64) (checksum : UInt32) :
    Moves R (ArchiveWriter.recordStream entryIndex size checksum) :=
  activeFolder_moves.bind fun _ => (Moves.ofExcept _).bind fun _ => setState_moves _

theorem finishEntryFolderAccounting_moves (size : UInt64) :
    Moves R (ArchiveWriter.finishEntryFolderAccounting outside size) := by
  refine activeFolder_moves.bind fun ⟨folder, completed, progress⟩ => (Moves.ofExcept _).bind fun _ =>
    (setState_moves _).bind fun _ => Moves.get.bind fun w => ?_
  split
  · exact sealStreamingFolder_moves
  · exact Moves.pure _

theorem writeChunk_moves (chunk : List UInt8) : Moves R (ArchiveWriter.writeChunk outside chunk) :=
  activeFolder_moves.bind fun _ => Moves.get.bind fun _ => (folder_write_moves _ _ _).bind fun _ =>
    setState_moves _

theorem writeChunks_moves (reader : Reader) : ∀ (chunk seen : List UInt8) (size : UInt64),
    Moves R (ArchiveWriter.writeChunks outside reader chunk seen size) := by
  induction reader with
  | nil =>
    intro chunk seen size
    exact (writeChunk_moves _).bind fun _ => (Moves.ofExcept _).bind fun _ => (read_moves _).bind fun _ =>
      Moves.pure _
  | cons next reader ih =>
    intro chunk seen size
    refine (writeChunk_moves _).bind fun _ => (Moves.ofExcept _).bind fun _ => (read_moves _).bind fun _ => ?_
    split
    · exact Moves.pure _
    · exact ih _ _ _

end

/-- A part of the writer that says nothing of the output and of the clock. -/
class Inward (part : ArchiveWriter → τ) : Prop where
  same : ∀ w output clock, part { w with output, clock } = part w

instance : Inward ArchiveWriter.state := ⟨fun _ _ _ => rfl⟩

variable [Inward part]

instance : Outward fun w w' => part w' = part w where
  refl _ := rfl
  trans _ _ _ h h' := h'.trans h
  clock w clock := Inward.same w w.output clock
  write w _ := Inward.same w _ w.clock

theorem external_keeps : Keeps part (external outside) :=
  external_moves (R := fun w w' => part w' = part w)

theorem writeAll_keeps (bytes : List UInt8) : Keeps part (writeAll outside bytes) :=
  writeAll_moves (R := fun w w' => part w' = part w) bytes

theorem seek_keeps (position : ℕ) : Keeps part (seek outside position) :=
  external_keeps.bind fun _ => Keeps.modify fun w => Inward.same w _ w.clock

theorem folder_encoded_keeps (knownSize : Option UInt64) (prepared : PreparedArchiveOptions) :
    Keeps part (StreamingFolder.encoded outside knownSize prepared) :=
  folder_encoded_moves (R := fun w w' => part w' = part w) knownSize prepared

theorem folder_write_keeps (prepared : PreparedArchiveOptions) (folder : StreamingFolder)
    (bytes : List UInt8) : Keeps part (folder.write outside prepared bytes) :=
  folder_write_moves (R := fun w w' => part w' = part w) prepared folder bytes

theorem completedFolders_keeps (prepared : PreparedArchiveOptions) (state : WriterState) :
    Keeps part (ArchiveWriter.completedFolders outside prepared state) :=
  completedFolders_moves (R := fun w w' => part w' = part w) prepared state

theorem read_keeps (reader : Reader) : Keeps part (ArchiveWriter.read outside reader) :=
  read_moves (R := fun w w' => part w' = part w) reader

theorem reserveSignature_keeps (completed : List CompletedFolder) :
    Keeps part (ArchiveWriter.reserveSignature outside completed) := by
  unfold ArchiveWriter.reserveSignature
  split
  · exact (seek_keeps 0).bind fun _ => writeAll_keeps _
  · exact Keeps.pure _

end

end R7z
