import R7z.PackedStreams
import R7z.WrittenListing

/-! What the archive of a writer is listed as: the entries that its calls gave to it, in order, each with the
size and the checksum of its data. -/

namespace R7z

open Wire Effect Effect.Machine Write

namespace Write

/-- An entry as it is given to a writer. One without data owns no stream. -/
structure Given where
  name : String
  kind : EntryKind
  metadata : EntryMeta
  data : List UInt8
deriving DecidableEq

structure Given.Enters (given : Given) (entry : WriteEntry) : Prop where
  name : entry.name = given.name
  rawName : entry.rawName = none
  kind : entry.kind = given.kind
  metadata : entry.metadata = given.metadata
  stream : entry.stream.hasStream = !given.data.isEmpty

def givenData (given : List Given) : List (ℕ × List UInt8) :=
  (given.zipIdx.filter fun (given, _) => !given.data.isEmpty).map fun (given, i) => (i, given.data)

theorem givenData_empty {given : List Given} {last : Given} (h : last.data = []) :
    givenData (given ++ [last]) = givenData given := by
  unfold givenData
  rw [List.zipIdx_append, List.filter_append, List.map_append, List.zipIdx_singleton,
    List.filter_cons_of_neg (by simp [h])]
  exact List.append_nil _

theorem givenData_data {given : List Given} {last : Given} (h : last.data ≠ []) :
    givenData (given ++ [last]) = givenData given ++ [(given.length, last.data)] := by
  unfold givenData
  rw [List.zipIdx_append, List.filter_append, List.map_append, List.zipIdx_singleton, Nat.zero_add,
    List.filter_cons_of_pos (by simpa using h)]
  rfl

/-- A file with its data, as the header tells of it: its place, its size and its checksum. -/
def fileOf (outside : Outside) (file : ℕ × List UInt8) : FolderFile :=
  { entryIndex := file.1, size := UInt64.ofNat file.2.length, crc := some (outside.crc32 file.2) }

def givenFiles (outside : Outside) (given : List Given) : List FolderFile :=
  (givenData given).map (fileOf outside)

def CompletedFolder.files (folder : CompletedFolder) : List FolderFile :=
  (folder.fileIndices.zip (folder.fileSizes.zip folder.fileCrcs)).map fun (entryIndex, size, crc) =>
    { entryIndex, size, crc }

def Sound (folder : CompletedFolder) : Prop := ∃ w, Consistent folder w

structure Stored where
  files : List (ℕ × List UInt8)
  packed : List UInt8

def Stored.data (stored : Stored) : List UInt8 := stored.files.flatMap Prod.snd

structure Stored.In (outside : Outside) (prepared : PreparedArchiveOptions) (stored : Stored)
    (folder : CompletedFolder) : Prop where
  files : folder.files = stored.files.map (fileOf outside)
  sound : Sound folder
  encodes : ∃ chunks, chunks.flatten = stored.data ∧
    Encodes outside prepared chunks stored.packed (UInt64.ofNat stored.data.length) folder

def packedFront (stored : List Stored) : List UInt8 := List.replicate 32 0 ++ stored.flatMap Stored.packed

/-- Until there is a folder the output is left alone, and then the packed streams are behind the place of the
signature. -/
structure StreamsOut (start : Sink) (stored : List Stored) (output : Sink) : Prop where
  nothing : stored = [] → output = start
  streams : stored ≠ [] → Sink.Ends start (packedFront stored) output

/-- A folder that is being filled with these files, and with the first part of another one. -/
structure StreamingFolder.Fills (outside : Outside) (prepared : PreparedArchiveOptions) (start : Sink)
    (front : List UInt8) (current : List (ℕ × List UInt8)) (pending : List UInt8) (folder : StreamingFolder)
    (output : Sink) : Prop where
  files : folder.files = current.map (fileOf outside)
  size : folder.unpackSize.toNat = (folder.files.map fun file => file.size.toNat).sum
  total : folder.unpackSize = UInt64.ofNat (current.flatMap Prod.snd).length
  chunks : ∃ chunks, chunks.flatten = current.flatMap Prod.snd ++ pending ∧
    folder.Puts outside prepared start front chunks output

/-- The folders of a writer hold these files, in order, and the open one a part of the next. -/
def WriterState.Holds (outside : Outside) (prepared : PreparedArchiveOptions) (start : Sink)
    (files : List (ℕ × List UInt8)) (pending : List UInt8) (output : Sink) : WriterState → Prop
  | .Ready completed => pending = [] ∧ ∃ stored, List.Forall₂ (Stored.In outside prepared) stored completed ∧
      stored.flatMap Stored.files = files ∧ StreamsOut start stored output
  | .Active folder completed _ => ∃ stored current, List.Forall₂ (Stored.In outside prepared) stored completed ∧
      stored.flatMap Stored.files ++ current = files ∧
      folder.Fills outside prepared start (packedFront stored) current pending output
  | .Failed => False

abbrev Inside (w : ArchiveWriter) : List WriteEntry × PreparedArchiveOptions × WriterState × Sink :=
  (w.entries, w.prepared, w.state, w.output)

def HoldsGiven (outside : Outside) (start : Sink) (given : List Given) (files : List (ℕ × List UInt8))
    (pending : List UInt8) (w : ArchiveWriter) : Prop :=
  List.Forall₂ Given.Enters given w.entries ∧ w.state.Holds outside w.prepared start files pending w.output

section
variable {outside : Outside} {prepared : PreparedArchiveOptions} {start : Sink} {given : List Given}
  {files : List (ℕ × List UInt8)} {pending : List UInt8}

theorem external_inside : Keeps Inside (external outside) := external_still fun _ _ => rfl

theorem holdsGiven_kept {α : Type} {m : WriterM α} (h : Keeps Inside m) :
    Meets (HoldsGiven outside start given files pending) m (fun _ => HoldsGiven outside start given files pending)
      fun _ => HoldsGiven outside start given files pending :=
  h.meets fun kept => List.Forall₂ Given.Enters given kept.1 ∧
    kept.2.2.1.Holds outside kept.2.1 start files pending kept.2.2.2

theorem holdsGiven_ok {α : Type} {m : WriterM α} (h : Keeps Inside m) {w w' : ArchiveWriter} {a : α}
    (hw : HoldsGiven outside start given files pending w) (hm : m w = (.ok a, w')) :
    HoldsGiven outside start given files pending w' := (holdsGiven_kept h).ok hw hm

/-! The folders -/

theorem complete_done {w w' : ArchiveWriter} {folder : StreamingFolder} {completed : CompletedFolder}
    {knownSize : Option UInt64} {chunks : List (List UInt8)}
    (hfilled : folder.Filled outside prepared knownSize chunks)
    (h : folder.complete outside prepared w = (.ok completed, w')) :
    ∃ packSize coderInfo coderUnpackSizes, completed =
      { fileIndices := folder.files.map FolderFile.entryIndex, packSizes := [packSize], coderInfo, coderUnpackSizes,
        folderCrc := none, fileSizes := folder.files.map FolderFile.size,
        fileCrcs := folder.files.map FolderFile.crc } := by
  have hholds := hfilled.holds
  unfold StreamingFolder.complete at h
  cases hencoder : folder.encoder with
  | Raw =>
    rw [hencoder] at hholds
    exact hholds.elim
  | Copy =>
    rw [hencoder] at h
    obtain ⟨⟨packSize, info, sizes⟩, _, _, h⟩ := bind_eq_ok.mp h
    cases h
    exact ⟨packSize, info, sizes, rfl⟩
  | Lzma | Ppmd =>
    rw [hencoder] at h
    obtain ⟨_, _, _, h⟩ := bind_eq_ok.mp h
    obtain ⟨⟨packSize, info, sizes⟩, _, _, h⟩ := bind_eq_ok.mp h
    cases h
    exact ⟨packSize, info, sizes, rfl⟩
  | Lzma2 | BcjLzma2 =>
    rw [hencoder] at h
    obtain ⟨_, _, _, h⟩ := bind_eq_ok.mp h
    obtain ⟨_, _, _, h⟩ := bind_eq_ok.mp h
    obtain ⟨⟨packSize, info, sizes⟩, _, _, h⟩ := bind_eq_ok.mp h
    cases h
    exact ⟨packSize, info, sizes, rfl⟩

theorem zip_files : ∀ files : List FolderFile,
    ((files.map FolderFile.entryIndex).zip ((files.map FolderFile.size).zip (files.map FolderFile.crc))).map
      (fun (entryIndex, size, crc) => ({ entryIndex, size, crc } : FolderFile)) = files
  | [] => rfl
  | file :: files => by
    rw [List.map_cons, List.map_cons, List.map_cons, List.zip_cons_cons, List.zip_cons_cons, List.map_cons,
      zip_files files]

theorem StreamingFolder.Filled.sound {w w' : ArchiveWriter} {folder : StreamingFolder} {completed : CompletedFolder}
    {knownSize : Option UInt64} {chunks : List (List UInt8)}
    (hfilled : folder.Filled outside prepared knownSize chunks)
    (hsize : folder.unpackSize.toNat = (folder.files.map fun file => file.size.toNat).sum)
    (h : folder.complete outside prepared w = (.ok completed, w')) : Sound completed := by
  obtain ⟨cipher, specs, graph, hlines⟩ := hfilled.linesUp h
  obtain ⟨packSize, info, sizes, rfl⟩ := complete_done hfilled h
  have hparse := hlines.parses.reads 0 [] trivial
  rw [List.append_nil, Nat.zero_add] at hparse
  refine ⟨{ folder := lineFolder (folderCoders cipher specs), graph, wired := hlines.parses.runs.graph_eq },
    hparse, ?_, hlines.outputs, ?_, ?_, folder.unpackSize, hlines.final, ?_⟩
  · exact (congrArg List.length hlines.parses.runs.packed).symm
  · exact (List.length_map _).trans (List.length_map _).symm
  · exact (List.length_map _).trans (List.length_map _).symm
  · rw [hsize, List.map_map]
    rfl

theorem StreamingFolder.Fills.complete {w w' : ArchiveWriter} {folder : StreamingFolder} {front : List UInt8}
    {completed : CompletedFolder} (hfills : folder.Fills outside prepared start front files [] w.output)
    (h : folder.complete outside prepared w = (.ok completed, w')) :
    ∃ packed, Stored.In outside prepared ⟨files, packed⟩ completed ∧ Sink.Ends start (front ++ packed) w'.output := by
  obtain ⟨hfiles, hsize, htotal, chunks, hflatten, hputs⟩ := hfills
  obtain ⟨packed, hencodes, hends⟩ := hputs.complete h
  obtain ⟨knownSize, payload, hfilled, -⟩ := hputs
  rw [List.append_nil] at hflatten
  rw [htotal] at hencodes
  refine ⟨packed, ⟨?_, hfilled.sound hsize h, chunks, hflatten, hencodes⟩, hends⟩
  obtain ⟨packSize, info, sizes, rfl⟩ := complete_done hfilled h
  exact (zip_files folder.files).trans hfiles

theorem StreamingFolder.Fills.encoded {w w' : ArchiveWriter} {folder : StreamingFolder} {front : List UInt8}
    {knownSize : Option UInt64} (hends : Sink.Ends start front w.output)
    (h : StreamingFolder.encoded outside knownSize prepared w = (.ok folder, w')) :
    folder.Fills outside prepared start front [] [] w'.output := by
  obtain ⟨hfiles, hsize⟩ := encoded_files h
  refine ⟨hfiles, ?_, hsize, [], rfl, StreamingEncoder.payload_encoded hends h⟩
  rw [hfiles, hsize]
  rfl

theorem StreamingFolder.Fills.write {w w' : ArchiveWriter} {folder folder' : StreamingFolder}
    {front bytes : List UInt8} (hfills : folder.Fills outside prepared start front files pending w.output)
    (h : folder.write outside prepared bytes w = (.ok folder', w')) :
    folder'.Fills outside prepared start front files (pending ++ bytes) w'.output := by
  obtain ⟨hfiles, hsize, htotal, chunks, hflatten, hputs⟩ := hfills
  obtain ⟨hsame, hunpack⟩ := write_files h
  refine ⟨hsame.trans hfiles, ?_, hunpack.trans htotal, chunks ++ [bytes], ?_, hputs.write h⟩
  · rw [hsame, hunpack]
    exact hsize
  · rw [List.flatten_append, List.flatten_singleton, hflatten, List.append_assoc]

theorem StreamingFolder.Fills.recordStream {folder folder' : StreamingFolder} {entryIndex : WriteEntryIndex}
    {front : List UInt8} {output : Sink}
    (hfills : folder.Fills outside prepared start front files pending output)
    (h : folder.recordStream entryIndex (UInt64.ofNat pending.length) (outside.crc32 pending) = .ok folder') :
    folder'.Fills outside prepared start front (files ++ [(entryIndex, pending)]) [] output := by
  obtain ⟨hfiles, hsize, htotal, chunks, hflatten, hputs⟩ := hfills
  obtain ⟨hmore, hunpack⟩ := recordStream_files h
  have hsum : folder'.unpackSize.toNat = folder.unpackSize.toNat + (UInt64.ofNat pending.length).toNat := by
    unfold StreamingFolder.recordStream at h
    split at h
    · cases h
    · obtain ⟨unpackSize, hadd, h⟩ := except_bind_eq_ok.mp h
      cases h
      exact FolderProgress.checkedAddU64_toNat hadd
  refine ⟨?_, ?_, ?_, chunks, ?_, hputs.recordStream h⟩
  · rw [hmore, hfiles, List.map_append]
    rfl
  · rw [hmore, hsum, hsize, List.map_append, List.sum_append]
    rfl
  · rw [hunpack, htotal, List.flatMap_append, List.flatMap_singleton, List.length_append, UInt64.ofNat_add]
  · rw [hflatten, List.flatMap_append, List.flatMap_singleton, List.append_nil]

/-! The steps of an appended file -/

theorem writeZeros_ends {w w' : ArchiveWriter} (h : ArchiveWriter.reserveSignature outside [] w = (.ok (), w')) :
    Sink.Ends w.output (List.replicate 32 0) w'.output := by
  obtain ⟨_, w₁, hseek, hwrite⟩ := bind_eq_ok.mp h
  obtain ⟨_, w₂, hexternal, hmove⟩ := bind_eq_ok.mp hseek
  have houtput := congrArg (fun kept => kept.2.2.2) (external_inside.ok hexternal)
  cases hmove
  have hstart : Sink.Ends w.output [] (w₂.output.seek 0) := by
    refine ⟨?_, rfl⟩
    rw [show w₂.output = w.output from houtput]
    rfl
  exact writeAll_ends hstart hwrite

/-- The packed stream of another folder comes behind those that are there. -/
theorem StreamsOut.reserved {w w' : ArchiveWriter} {stored : List Stored} {completed : List CompletedFolder}
    (hout : StreamsOut start stored w.output) (hstored : List.Forall₂ (Stored.In outside prepared) stored completed)
    (h : ArchiveWriter.reserveSignature outside completed w = (.ok (), w')) :
    Sink.Ends start (packedFront stored) w'.output := by
  cases hstored with
  | nil =>
    rw [← hout.nothing rfl]
    exact writeZeros_ends h
  | cons =>
    cases h
    exact hout.streams (List.cons_ne_nil _ _)

theorem ensureStreamingFolder_holds (plan : FolderPlan) :
    Meets (HoldsGiven outside start given files []) (ArchiveWriter.ensureStreamingFolder outside plan)
      (fun _ => HoldsGiven outside start given files []) fun _ _ => True := by
  apply Meets.of_ok
  intro w _ w' hw h
  have hlisting : Listing w' = Listing w := (ensureStreamingFolder_keeps plan).ok h
  obtain ⟨hentries, hfiles⟩ := hw
  obtain ⟨hsame, hprepared⟩ := Prod.mk.inj hlisting
  refine ⟨hsame ▸ hentries, ?_⟩
  rw [hprepared]
  obtain ⟨_, _, hget, h⟩ := bind_eq_ok.mp h
  cases hget
  cases hstate : w.state with
  | Failed =>
    rw [hstate] at h
    cases h
  | Active folder completed progress =>
    rw [hstate] at h
    cases h
    exact hfiles
  | Ready completed =>
    rw [hstate] at h hfiles
    obtain ⟨_, w₁, hset, h⟩ := bind_eq_ok.mp h
    cases hset
    obtain ⟨_, w₂, hreserve, h⟩ := bind_eq_ok.mp h
    obtain ⟨folder, w₃, hfolder, h⟩ := bind_eq_ok.mp h
    cases h
    obtain ⟨-, stored, hstored, hheld, hout⟩ := hfiles
    have hends : Sink.Ends start (packedFront stored) w₂.output :=
      StreamsOut.reserved (w := { w with state := .Failed }) hout hstored hreserve
    have hfills := StreamingFolder.Fills.encoded hends hfolder
    exact ⟨stored, [], hstored, (List.append_nil _).trans hheld, hfills⟩

theorem writeChunk_holds (chunk : List UInt8) :
    Meets (HoldsGiven outside start given files pending) (ArchiveWriter.writeChunk outside chunk)
      (fun _ => HoldsGiven outside start given files (pending ++ chunk)) fun _ _ => True := by
  apply Meets.of_ok
  intro w _ w' hw h
  obtain ⟨⟨folder, completed, progress⟩, _, hactive, h⟩ := bind_eq_ok.mp h
  obtain ⟨rfl, hstate⟩ := activeFolder_ok hactive
  obtain ⟨_, _, hget, h⟩ := bind_eq_ok.mp h
  cases hget
  obtain ⟨folder', w₁, hwrite, h⟩ := bind_eq_ok.mp h
  cases h
  have hlisting : Listing w₁ = Listing w := (@folder_write_keeps outside _ Listing _ _ _ _).ok hwrite
  obtain ⟨hsame, hprepared⟩ := Prod.mk.inj hlisting
  obtain ⟨hentries, hfiles⟩ := hw
  rw [hstate] at hfiles
  obtain ⟨stored, current, hstored, hheld, hfills⟩ := hfiles
  refine ⟨hsame ▸ hentries, ?_⟩
  change WriterState.Holds outside w₁.prepared start files (pending ++ chunk) w₁.output
    (.Active folder' completed progress)
  rw [hprepared]
  exact ⟨stored, current, hstored, hheld, hfills.write hwrite⟩

theorem writeChunks_holds (reader : Reader) (chunk seen : List UInt8) (size : UInt64) :
    Meets (HoldsGiven outside start given files []) (ArchiveWriter.writeChunks outside reader chunk seen size)
      (fun written w => written.2 = size + UInt64.ofNat (chunk.length + readerSize reader) ∧
        HoldsGiven outside start given files (chunk ++ readerData reader) w) fun _ _ => True :=
  writeChunks_meets (I := fun data => HoldsGiven outside start given files data) (fun _ => writeChunk_holds)
    (fun _ reader => (holdsGiven_kept (read_still (fun _ _ => rfl) reader)).mono (fun _ h => h) (fun _ _ h => h)
      fun _ _ _ => trivial) reader [] chunk seen size

theorem writeChunks_data (reader : Reader) : ∀ (chunk seen : List UInt8) (size : UInt64) {w w' : ArchiveWriter}
    {written : List UInt8 × UInt64},
    ArchiveWriter.writeChunks outside reader chunk seen size w = (.ok written, w') →
      written.1 = seen ++ (chunk ++ readerData reader) := by
  induction reader with
  | nil =>
    intro chunk seen size w w' written h
    obtain ⟨_, w₁, _, h⟩ := bind_eq_ok.mp h
    obtain ⟨_, w₂, _, h⟩ := bind_eq_ok.mp h
    obtain ⟨_, w₃, _, h⟩ := bind_eq_ok.mp h
    cases h
    rw [show readerData [] = [] from rfl, List.append_nil]
  | cons next reader ih =>
    intro chunk seen size w w' written h
    obtain ⟨_, w₁, _, h⟩ := bind_eq_ok.mp h
    obtain ⟨total, w₂, _, h⟩ := bind_eq_ok.mp h
    obtain ⟨more, w₃, hnext, hrest⟩ := bind_eq_ok.mp h
    rcases read_ok hnext with ⟨hnil, _⟩ | ⟨_, hcons⟩
    · cases hnil
    cases hcons
    rw [readerData]
    split at hrest
    · next hempty =>
      cases hrest
      rw [if_pos hempty, List.append_nil]
    · next hdata =>
      rw [if_neg hdata, ih _ _ _ hrest, List.append_assoc]

theorem pushStreaming_holds {last : Given} (hkind : last.kind = .File) (hdata : last.data ≠ []) :
    Meets (HoldsGiven outside start given files last.data)
      (ArchiveWriter.pushStreaming last.name last.metadata (UInt64.ofNat last.data.length) (outside.crc32 last.data))
      (fun _ => HoldsGiven outside start (given ++ [last]) (files ++ [(given.length, last.data)]) [])
      fun _ _ => True := by
  apply Meets.of_ok
  intro w _ w' hw h
  obtain ⟨_, _, hget, h⟩ := bind_eq_ok.mp h
  cases hget
  obtain ⟨folderId, w₁, hnext, h⟩ := bind_eq_ok.mp h
  obtain ⟨_, w₂, hpush, h⟩ := bind_eq_ok.mp h
  have hkept : Inside w₁ = Inside w := (@nextFolderId_keeps _ Inside).ok hnext
  obtain ⟨hsame, hkept⟩ := Prod.mk.inj hkept
  obtain ⟨hprepared, hkept⟩ := Prod.mk.inj hkept
  obtain ⟨hstate₁, houtput⟩ := Prod.mk.inj hkept
  obtain ⟨hentries, hfiles⟩ := hw
  cases hpush
  obtain ⟨⟨folder, completed, progress⟩, _, hactive, h⟩ := bind_eq_ok.mp h
  obtain ⟨rfl, hstate⟩ := activeFolder_ok hactive
  obtain ⟨folder', w₃, hrecord, h⟩ := bind_eq_ok.mp h
  obtain ⟨hrecorded, rfl⟩ := Prod.mk.inj hrecord
  cases h
  have hstate : w₁.state = .Active folder completed progress := hstate
  rw [← hstate₁, hstate] at hfiles
  obtain ⟨stored, current, hstored, hheld, hfills⟩ := hfiles
  have hindex : w.entries.length = given.length := hentries.length_eq.symm
  refine ⟨?_, ?_⟩
  · change List.Forall₂ Given.Enters _ (w₁.entries ++ [_])
    rw [hsame]
    refine List.rel_append hentries (.cons ⟨rfl, rfl, hkind.symm, rfl, ?_⟩ .nil)
    rw [List.isEmpty_eq_false_iff.mpr hdata]
    rfl
  · change WriterState.Holds outside w₁.prepared start _ [] w₁.output (.Active folder' completed progress)
    rw [hprepared, houtput]
    refine ⟨stored, _, hstored, ?_, hfills.recordStream hrecorded⟩
    rw [← List.append_assoc, hheld, hindex]

theorem sealStreamingFolder_holds :
    Meets (HoldsGiven outside start given files []) (ArchiveWriter.sealStreamingFolder outside)
      (fun _ => HoldsGiven outside start given files []) fun _ _ => True := by
  apply Meets.of_ok
  intro w _ w' hw h
  obtain ⟨hsame, hprepared⟩ := Prod.mk.inj (sealStreamingFolder_keeps.ok h)
  obtain ⟨hentries, hfiles⟩ := hw
  refine ⟨hsame ▸ hentries, ?_⟩
  rw [hprepared]
  obtain ⟨_, _, hget, h⟩ := bind_eq_ok.mp h
  cases hget
  obtain ⟨_, w₁, hset, h⟩ := bind_eq_ok.mp h
  cases hset
  obtain ⟨_, w₂, hfirst, h⟩ := bind_eq_ok.mp h
  obtain ⟨completed, w₃, hcompleted, h⟩ := bind_eq_ok.mp h
  obtain ⟨_, w₄, hsecond, h⟩ := bind_eq_ok.mp h
  cases h
  have hbefore : w₂.output = w.output := congrArg (fun kept => kept.2.2.2) (external_inside.ok hfirst)
  have hafter : w₄.output = w₃.output := congrArg (fun kept => kept.2.2.2) (external_inside.ok hsecond)
  change WriterState.Holds outside w.prepared start files [] w₄.output (.Ready completed)
  rw [hafter]
  cases hstate : w.state with
  | Failed =>
    rw [hstate] at hcompleted
    cases hcompleted
  | Ready before =>
    rw [hstate] at hcompleted hfiles
    cases hcompleted
    rw [hbefore]
    exact hfiles
  | Active folder before progress =>
    rw [hstate] at hcompleted hfiles
    obtain ⟨last, _, hlast, hcompleted⟩ := bind_eq_ok.mp hcompleted
    cases hcompleted
    obtain ⟨stored, current, hstored, hheld, hfills⟩ := hfiles
    rw [← hbefore] at hfills
    obtain ⟨packed, hin, hends⟩ := hfills.complete hlast
    refine ⟨rfl, stored ++ [⟨current, packed⟩], List.rel_append hstored (.cons hin .nil), ?_, ?_, ?_⟩
    · rw [List.flatMap_append, List.flatMap_singleton]
      exact hheld
    · intro hnone
      cases List.append_ne_nil_of_right_ne_nil _ (List.cons_ne_nil _ _) hnone
    · intro _
      unfold packedFront at hends ⊢
      rw [List.flatMap_append, List.flatMap_singleton, ← List.append_assoc]
      exact hends

theorem finishEntryFolderAccounting_holds (size : UInt64) :
    Meets (HoldsGiven outside start given files []) (ArchiveWriter.finishEntryFolderAccounting outside size)
      (fun _ => HoldsGiven outside start given files []) fun _ _ => True := by
  apply Meets.of_ok
  intro w _ w' hw h
  obtain ⟨⟨folder, completed, progress⟩, _, hactive, h⟩ := bind_eq_ok.mp h
  obtain ⟨rfl, hstate⟩ := activeFolder_ok hactive
  obtain ⟨progress', w₁, hrecord, h⟩ := bind_eq_ok.mp h
  obtain ⟨_, rfl⟩ := Prod.mk.inj hrecord
  obtain ⟨_, w₂, hset, h⟩ := bind_eq_ok.mp h
  obtain ⟨_, w₃, hget, hlast⟩ := bind_eq_ok.mp h
  cases hget
  cases hset
  have hw₂ : HoldsGiven outside start given files [] { w with state := .Active folder completed progress' } := by
    obtain ⟨hentries, hfiles⟩ := hw
    rw [hstate] at hfiles
    exact ⟨hentries, hfiles⟩
  dsimp only at hlast
  split at hlast
  · exact sealStreamingFolder_holds.ok hw₂ hlast
  · cases hlast
    exact hw₂

theorem appendStreaming_holds {name : String} {reader : Reader} {metadata : EntryMeta} :
    Meets (HoldsGiven outside start given (givenData given) [])
      (ArchiveWriter.appendStreaming outside name reader metadata .Automatic)
      (fun _ => HoldsGiven outside start (given ++ [⟨name, .File, metadata, readerData reader⟩])
        (givenData (given ++ [⟨name, .File, metadata, readerData reader⟩])) []) fun _ _ => True := by
  apply Meets.of_ok
  intro w _ w' hw h
  obtain ⟨first, w₁, hread, hrest⟩ := bind_eq_ok.mp h
  have hw₁ := holdsGiven_ok (read_still (fun _ _ => rfl) reader) hw hread
  have hdata := readerData_read hread
  split at hrest
  · next hempty =>
    obtain ⟨folderId, w₂, hnext, hpush⟩ := bind_eq_ok.mp hrest
    obtain ⟨hentries, hfiles⟩ := holdsGiven_ok nextFolderId_keeps hw₁ hnext
    cases hpush
    rw [if_pos hempty] at hdata
    rw [hdata, givenData_empty rfl]
    exact ⟨List.rel_append hentries (.cons ⟨rfl, rfl, rfl, rfl, rfl⟩ .nil), hfiles⟩
  · next hsome =>
    obtain ⟨_, w₂, hensure, hrest⟩ := bind_eq_ok.mp hrest
    obtain ⟨⟨written, size⟩, w₃, hwrite, hrest⟩ := bind_eq_ok.mp hrest
    obtain ⟨_, w₄, hpush, hlast⟩ := bind_eq_ok.mp hrest
    rw [if_neg hsome] at hdata
    have hw₂ := (ensureStreamingFolder_holds .Automatic).ok hw₁ hensure
    obtain ⟨hsize, hw₃⟩ := (writeChunks_holds _ _ _ _).ok hw₂ hwrite
    have hwritten : written = readerData reader := by
      rw [hdata]
      exact (writeChunks_data _ _ _ _ hwrite).trans (List.nil_append _)
    have htotal : size = UInt64.ofNat (readerData reader).length := by
      rw [hdata, List.length_append, readerData_length]
      exact hsize.trans (UInt64.zero_add _)
    have hne : readerData reader ≠ [] := by
      rw [hdata]
      intro hnil
      exact hsome (List.isEmpty_iff.mpr (List.append_eq_nil_iff.mp hnil).1)
    subst hwritten
    subst htotal
    rw [← hdata] at hw₃
    have hw₄ := (@pushStreaming_holds outside start given _ ⟨name, .File, metadata, readerData reader⟩ rfl hne).ok
      hw₃ hpush
    rw [givenData_data hne]
    exact (finishEntryFolderAccounting_holds _).ok hw₄ hlast

/-! The calls -/

def Kept (outside : Outside) (start : Sink) (given : List Given) (w : ArchiveWriter) : Prop :=
  Failed w ∨ HoldsGiven outside start given (givenData given) [] w

def Gives (outside : Outside) (m : WriterM Unit) (last : Option Given) : Prop := ∀ start given,
  Meets (Kept outside start given) m (fun _ => Kept outside start (given ++ last.toList))
    fun _ => Kept outside start given

theorem Gives.of_holds {m : WriterM Unit} {last : Option Given} (hrefuses : Refuses m)
    (h : ∀ start given, Meets (HoldsGiven outside start given (givenData given) []) m
      (fun _ => Kept outside start (given ++ last.toList)) fun _ => Kept outside start given) :
    Gives outside m last := by
  intro start given w hw
  rcases hw with hw | hw
  · exact (hrefuses w hw).mono (fun _ _ hfalse => hfalse.elim) fun _ _ hw' => .inl hw'
  · exact h start given w hw

theorem appendEmptyEntry_gives (entry : ArchiveEntry) :
    Gives outside (ArchiveWriter.appendEmptyEntry outside entry) (some ⟨entry.name, entry.kind, entry.metadata, []⟩) := by
  refine .of_holds (appendEmptyEntry_refuses entry) fun start given => ?_
  have hkept {α : Type} {m : WriterM α} (h : Keeps Inside m) :
      Meets (HoldsGiven outside start given (givenData given) []) m
        (fun _ => HoldsGiven outside start given (givenData given) []) fun _ => Kept outside start given :=
    (holdsGiven_kept h).mono (fun _ hw => hw) (fun _ _ hw => hw) fun _ _ hw => .inr hw
  refine (hkept external_inside).bind fun _ => (hkept nextFolderId_keeps).bind fun folderId =>
    Meets.modify fun w hw => .inr ?_
  obtain ⟨hentries, hfiles⟩ := hw
  rw [Option.toList_some, givenData_empty rfl]
  exact ⟨List.rel_append hentries (.cons ⟨rfl, rfl, rfl, rfl, rfl⟩ .nil), hfiles⟩

theorem appendFile_gives (name : String) (reader : Reader) (metadata : EntryMeta) :
    Gives outside (ArchiveWriter.appendFile outside name reader metadata)
      (some ⟨name, .File, metadata, readerData reader⟩) := by
  refine .of_holds (appendFile_refuses name reader metadata) fun start given =>
    Meets.onError (Meets.get_bind fun w hw => ?_)
  have happend := @appendStreaming_holds outside start given name reader metadata w hw
  cases hstate : w.state with
  | Failed => exact .inl rfl
  | Ready | Active => exact happend.mono (fun _ _ hw' => .inr hw') fun _ _ _ => .inl rfl

theorem newFolder_gives : Gives outside (ArchiveWriter.newFolder outside) none := by
  refine .of_holds newFolder_refuses fun start given => ?_
  have hboth := (@sealStreamingFolder_holds outside start given (givenData given)).and sealStreamingFolder_failed
  refine hboth.mono (fun _ hw => ⟨hw, trivial⟩) (fun _ _ h => .inr ?_) fun _ _ h => .inl h.2
  rw [Option.toList_none, List.append_nil]
  exact h.1

def WriterCall.given? : WriterCall → Option Given
  | appendEmptyEntry entry => some ⟨entry.name, entry.kind, entry.metadata, []⟩
  | appendFile name reader metadata => some ⟨name, .File, metadata, readerData reader⟩
  | append name reader => some ⟨name, .File, EntryMeta.default, readerData reader⟩
  | appendEntry name reader metadata => some ⟨name, .File, metadata, readerData reader⟩
  | appendArchiveEntry entry reader => some ⟨entry.name, .File, entry.metadata, readerData reader⟩
  | appendSymlink name target metadata =>
    some ⟨name, .File, metadata.withSymlinkDefault, target.toUTF8.toList⟩
  | appendEmptyFile name metadata => some ⟨name, .File, metadata, []⟩
  | appendDirectory name metadata => some ⟨name, .Directory, metadata, []⟩
  | appendAntiItem name metadata => some ⟨name, .Anti, metadata, []⟩
  | newFolder => none

def PrepareCall.given? : PrepareCall → Option Given
  | appendEmptyEntry entry => some ⟨entry.name, entry.kind, entry.metadata, []⟩
  | setCompression _ => none

theorem writerCall_gives (call : WriterCall) : Gives outside (call.run outside) call.given? := by
  cases call with
  | appendEmptyEntry entry => exact appendEmptyEntry_gives entry
  | appendFile name reader metadata => exact appendFile_gives name reader metadata
  | append name reader => exact appendFile_gives name reader _
  | appendEntry name reader metadata => exact appendFile_gives name reader metadata
  | appendArchiveEntry entry reader =>
    change Gives outside (ArchiveWriter.appendArchiveEntry outside entry reader) _
    unfold ArchiveWriter.appendArchiveEntry
    split
    · exact fun _ _ => Meets.fail fun _ hw => hw
    · exact appendFile_gives _ _ _
  | appendSymlink name target metadata =>
    intro start given
    refine Meets.get_bind fun w hw => ?_
    have hgives := @appendFile_gives outside name (ArchiveWriter.sliceReader w.prepared target.toUTF8.toList)
      metadata.withSymlinkDefault start given w hw
    rw [readerData_slice] at hgives
    exact hgives
  | appendEmptyFile name metadata => exact appendEmptyEntry_gives _
  | appendDirectory name metadata => exact appendEmptyEntry_gives _
  | appendAntiItem name metadata => exact appendEmptyEntry_gives _
  | newFolder => exact newFolder_gives

def givenBy {ι : Type} (given : ι → Option Given) (calls : List ι) (results : List (Except R7zError Unit)) :
    List Given :=
  (calls.zip results).flatMap fun (call, result) =>
    match result with
    | .ok () => (given call).toList
    | .error _ => []

/-- Over a run with failing calls, what is held is what the calls that succeeded gave. -/
theorem run_gives {ι : Type} {run : ι → WriterM Unit} {give : ι → Option Given} {I : List Given → ArchiveWriter → Prop}
    (hstep : ∀ call given, Meets (I given) (run call) (fun _ => I (given ++ (give call).toList)) fun _ => I given)
    (calls : List ι) {given : List Given} {w : ArchiveWriter} (hw : I given w) :
    I (given ++ givenBy give calls (runAll run calls w).1) (runAll run calls w).2 := by
  induction calls generalizing given w with
  | nil =>
    change I (given ++ []) w
    rwa [List.append_nil]
  | cons call calls ih =>
    have hcall := hstep call given w hw
    change I (given ++ givenBy give (call :: calls) ((run call w).1 :: (runAll run calls (run call w).2).1))
      (runAll run calls (run call w).2).2
    rcases hm : run call w with ⟨e | a, w'⟩
    · rw [hm] at hcall
      exact ih hcall
    · rw [hm] at hcall
      have hrest := ih hcall
      rw [List.append_assoc] at hrest
      exact hrest

/-- A writer that has failed, or that holds what it was given and has no folder yet. -/
def KeptIdle (outside : Outside) (start : Sink) (given : List Given) (w : ArchiveWriter) : Prop :=
  Failed w ∨ HoldsGiven outside start given (givenData given) [] w ∧ w.state = .Ready []

theorem prepareCall_gives (call : PrepareCall) (given : List Given) :
    Meets (KeptIdle outside start given) (call.run outside)
      (fun _ => KeptIdle outside start (given ++ call.given?.toList)) fun _ => KeptIdle outside start given := by
  cases call with
  | appendEmptyEntry entry =>
    have hstate : Keeps ArchiveWriter.state (ArchiveWriter.appendEmptyEntry outside entry) :=
      external_keeps.bind fun _ => nextFolderId_keeps.bind fun _ => Keeps.modify fun _ => rfl
    have hidle := hstate.meets fun state => state = .Failed ∨ state = .Ready []
    refine ((@appendEmptyEntry_gives outside entry start given).and hidle).mono (fun w hw => ?_) (fun _ w hw => ?_)
      fun _ w hw => ?_
    · rcases hw with hw | ⟨hw, hidle⟩
      · exact ⟨.inl hw, .inl hw⟩
      · exact ⟨.inr hw, .inr hidle⟩
    · rcases hw with ⟨hw | hw, hidle | hidle⟩
      · exact .inl hw
      · exact .inl hw
      · exact .inl hidle
      · exact .inr ⟨hw, hidle⟩
    · rcases hw with ⟨hw | hw, hidle | hidle⟩
      · exact .inl hw
      · exact .inl hw
      · exact .inl hidle
      · exact .inr ⟨hw, hidle⟩
  | setCompression prepared =>
    refine Meets.bind (Q := fun _ => KeptIdle outside start given)
      (Meets.ofExcept (fun _ _ _ hw => hw) fun _ _ _ hw => hw) fun prepared => Meets.modify fun w hw => ?_
    rw [PrepareCall.given?, Option.toList_none, List.append_nil]
    rcases hw with hw | ⟨⟨hentries, hfiles⟩, hready⟩
    · exact .inl hw
    · rw [hready] at hfiles
      obtain ⟨-, stored, hstored, hheld, hout⟩ := hfiles
      cases hstored
      refine .inr ⟨⟨hentries, ?_⟩, hready⟩
      change WriterState.Holds outside prepared start _ [] w.output w.state
      rw [hready]
      exact ⟨rfl, [], .nil, hheld, hout⟩

def writerGiven (outside : Outside) (prepare : List PrepareCall) (calls : List WriterCall) (w : ArchiveWriter) :
    List Given :=
  givenBy PrepareCall.given? prepare (runAll (PrepareCall.run outside) prepare w).1 ++
    givenBy WriterCall.given? calls
      (runAll (WriterCall.run outside) calls (runAll (PrepareCall.run outside) prepare w).2).1

theorem writerAfter_kept (outside : Outside) (output : Sink) (prepared : PreparedArchiveOptions)
    (prepare : List PrepareCall) (calls : List WriterCall) :
    Kept outside output (writerGiven outside prepare calls (ArchiveWriter.new output prepared))
      (writerAfter outside prepare calls (ArchiveWriter.new output prepared)) := by
  have hnew : KeptIdle outside output [] (ArchiveWriter.new output prepared) :=
    .inr ⟨⟨.nil, rfl, [], .nil, rfl, fun _ => rfl, fun hsome => absurd rfl hsome⟩, rfl⟩
  have hprepare := run_gives (@prepareCall_gives outside output) prepare hnew
  have hkept : Kept outside output ([] ++ givenBy PrepareCall.given? prepare
      (runAll (PrepareCall.run outside) prepare (ArchiveWriter.new output prepared)).1)
      (runAll (PrepareCall.run outside) prepare (ArchiveWriter.new output prepared)).2 := by
    rcases hprepare with h | ⟨h, -⟩
    · exact .inl h
    · exact .inr h
  exact run_gives (fun call => @writerCall_gives outside call output) calls hkept

/-! Options -/

theorem options_kept {α : Type} {m : WriterM α} (h : Keeps Listing m) : Keeps ArchiveWriter.prepared m :=
  fun w => (Prod.mk.inj (h w)).2

theorem appendEmptyEntry_options (entry : ArchiveEntry) :
    Keeps ArchiveWriter.prepared (ArchiveWriter.appendEmptyEntry outside entry) :=
  (options_kept external_keeps).bind fun _ => nextFolderId_keeps.bind fun _ => Keeps.modify fun _ => rfl

theorem appendStreaming_options (name : String) (reader : Reader) (metadata : EntryMeta) (plan : FolderPlan) :
    Keeps ArchiveWriter.prepared (ArchiveWriter.appendStreaming outside name reader metadata plan) := by
  have hensure := options_kept (@ensureStreamingFolder_keeps outside plan)
  have hentry (entry : WriteEntry) : Keeps ArchiveWriter.prepared (pushEntry entry) := Keeps.modify fun _ => rfl
  have hpush (size : UInt64) (checksum : UInt32) :
      Keeps ArchiveWriter.prepared (ArchiveWriter.pushStreaming name metadata size checksum) :=
    Keeps.get.bind fun _ => nextFolderId_keeps.bind fun _ => (hentry _).bind fun _ =>
      options_kept (recordStream_keeps _ _ _)
  refine (options_kept (read_keeps reader)).bind fun first => ?_
  split
  · cases plan with
    | Preplanned folderSize => exact hensure.bind fun _ => hpush _ _
    | Automatic => exact nextFolderId_keeps.bind fun _ => Keeps.modify fun _ => rfl
  · refine hensure.bind fun _ => (options_kept (writeChunks_keeps _ _ _ _)).bind fun ⟨data, size⟩ =>
      (hpush _ _).bind fun _ => ?_
    cases plan with
    | Preplanned folderSize => exact Keeps.pure _
    | Automatic => exact options_kept (finishEntryFolderAccounting_keeps size)

theorem appendFile_options (name : String) (reader : Reader) (metadata : EntryMeta) :
    Keeps ArchiveWriter.prepared (ArchiveWriter.appendFile outside name reader metadata) := by
  refine Keeps.onError (Keeps.get.bind fun w => ?_) fun _ => rfl
  cases w.state with
  | Failed => exact Keeps.fail _
  | Ready | Active => exact appendStreaming_options name reader metadata .Automatic

theorem writerCall_options (call : WriterCall) : Keeps ArchiveWriter.prepared (call.run outside) := by
  cases call with
  | appendEmptyEntry entry => exact appendEmptyEntry_options entry
  | appendFile name reader metadata => exact appendFile_options name reader metadata
  | append name reader => exact appendFile_options name reader _
  | appendEntry name reader metadata => exact appendFile_options name reader metadata
  | appendArchiveEntry entry reader =>
    change Keeps _ (ArchiveWriter.appendArchiveEntry outside entry reader)
    unfold ArchiveWriter.appendArchiveEntry
    split
    · exact Keeps.fail _
    · exact appendFile_options _ _ _
  | appendSymlink name target metadata => exact Keeps.get.bind fun _ => appendFile_options _ _ _
  | appendEmptyFile name metadata => exact appendEmptyEntry_options _
  | appendDirectory name metadata => exact appendEmptyEntry_options _
  | appendAntiItem name metadata => exact appendEmptyEntry_options _
  | newFolder => exact options_kept sealStreamingFolder_keeps

def PrepareCall.options? : PrepareCall → Option PreparedArchiveOptions
  | .setCompression (.ok prepared) => some prepared
  | _ => none

/-- The options at the end of these calls. -/
def optionsAfter (prepared : PreparedArchiveOptions) (prepare : List PrepareCall) : PreparedArchiveOptions :=
  prepare.foldl (fun prepared call => call.options?.getD prepared) prepared

theorem prepareCall_options (call : PrepareCall) (w : ArchiveWriter) :
    (call.run outside w).2.prepared = call.options?.getD w.prepared := by
  cases call with
  | appendEmptyEntry entry => exact appendEmptyEntry_options entry w
  | setCompression prepared => cases prepared <;> rfl

theorem writerAfter_options (prepare : List PrepareCall) (calls : List WriterCall) (w : ArchiveWriter) :
    (writerAfter outside prepare calls w).prepared = optionsAfter w.prepared prepare := by
  have hprepare : ∀ w, (runAll (PrepareCall.run outside) prepare w).2.prepared = optionsAfter w.prepared prepare := by
    induction prepare with
    | nil => exact fun _ => rfl
    | cons call prepare ih =>
      intro w
      rw [runAll, ih, prepareCall_options]
      rfl
  have hcall : ∀ call w', w'.prepared = optionsAfter w.prepared prepare →
      (WriterCall.run outside call w').2.prepared = optionsAfter w.prepared prepare :=
    fun call w' hw' => (writerCall_options call w').trans hw'
  exact runAll_preserves hcall calls (hprepare w)

/-! The end -/

theorem checkedSum_toNat {sizes : List UInt64} : ∀ {start total : UInt64},
    sizes.foldlM checkedAddU64 start = .ok total →
      total.toNat = start.toNat + (sizes.map UInt64.toNat).sum := by
  induction sizes with
  | nil =>
    intro start total h
    cases h
    rfl
  | cons size sizes ih =>
    intro start total h
    rw [List.foldlM_cons] at h
    obtain ⟨next, hnext, h⟩ := except_bind_eq_ok.mp h
    rw [ih h, FolderProgress.checkedAddU64_toNat hnext, List.map_cons, List.sum_cons, Nat.add_assoc]

theorem packedSize_toNat {folders : List CompletedFolder} {total : UInt64} (h : packedSize folders = .ok total) :
    total.toNat = ((packedSizes folders).map UInt64.toNat).sum := by
  have hfold : ∀ {folders : List CompletedFolder} {start total : UInt64},
      folders.foldlM (fun acc folder => do
        let folderSize ← checkedSum folder.packSizes
        checkedAddU64 acc folderSize) start = .ok total →
      total.toNat = start.toNat + ((packedSizes folders).map UInt64.toNat).sum := by
    intro folders
    induction folders with
    | nil =>
      intro start total h
      cases h
      rfl
    | cons folder folders ih =>
      intro start total h
      rw [List.foldlM_cons] at h
      obtain ⟨next, hnext, h⟩ := except_bind_eq_ok.mp h
      obtain ⟨size, hsize, hnext⟩ := except_bind_eq_ok.mp hnext
      have hsum : size.toNat = (folder.packSizes.map UInt64.toNat).sum :=
        (checkedSum_toNat hsize).trans (Nat.zero_add _)
      rw [ih h, FolderProgress.checkedAddU64_toNat hnext, hsum]
      unfold packedSizes
      rw [List.flatMap_cons, List.map_append, List.sum_append, Nat.add_assoc]
  exact (hfold h).trans (Nat.zero_add _)

theorem finish_writes {w w' : ArchiveWriter} (h : ArchiveWriter.finish outside w = (.ok (), w')) :
    ∃ w₀ w₁ w₂ folders size, Inside w₀ = Inside w ∧ ArchiveWriter.sealStreamingFolder outside w₀ = (.ok (), w₁) ∧
      w₁.state = .Ready folders ∧ packedSize folders = .ok size ∧ w₂.output = w₁.output ∧
      writeNextHeader outside (buildHeader w.entries folders) size w.entries.length w.prepared w₂ = (.ok (), w') := by
  obtain ⟨_, w₀, h₀, hrest⟩ := bind_eq_ok.mp h
  obtain ⟨_, _, hget, hseal⟩ := bind_eq_ok.mp hrest
  cases hget
  have hkept : Inside w₀ = Inside w := external_inside.ok h₀
  obtain ⟨hentries, hkept'⟩ := Prod.mk.inj hkept
  obtain ⟨hprepared, -⟩ := Prod.mk.inj hkept'
  have hgo : (do
      ArchiveWriter.sealStreamingFolder outside
      let folders ← takeFolders
      finishStreamedArchive outside w.entries folders w.prepared) w₀ = (.ok (), w') := by
    rw [hentries, hprepared] at hseal
    cases hw : w₀.state with
    | Failed =>
      rw [hw] at hseal
      cases hseal
    | Ready completed =>
      rw [hw] at hseal
      exact hseal
    | Active folder completed progress =>
      rw [hw] at hseal
      exact hseal
  obtain ⟨_, w₁, hsealed, htake⟩ := bind_eq_ok.mp hgo
  obtain ⟨folders, w₃, htaken, hfinish⟩ := bind_eq_ok.mp htake
  obtain ⟨_, w₄, hcheck, hsize⟩ := bind_eq_ok.mp hfinish
  obtain ⟨size, w₅, hpacked, hwrite⟩ := bind_eq_ok.mp hsize
  obtain ⟨htotal, rfl⟩ := Prod.mk.inj hpacked
  obtain ⟨_, _, hget, htaken⟩ := bind_eq_ok.mp htaken
  cases hget
  obtain ⟨_, _, hset, htaken⟩ := bind_eq_ok.mp htaken
  cases hset
  cases hw : w₁.state with
  | Active | Failed =>
    rw [hw] at htaken
    cases htaken
  | Ready completed =>
    rw [hw] at htaken
    cases htaken
    have houtput : w₄.output = w₁.output := congrArg (fun kept => kept.2.2.2) (external_inside.ok hcheck)
    exact ⟨w₀, w₁, w₄, folders, size, hkept, hsealed, hw, htotal, houtput, hwrite⟩

end

end Write

/-! What the header says -/

namespace Write

def Given.listedKind (given : Given) : ListingEntryKind :=
  match given.data.isEmpty, given.kind, FilesInfo.hasSymlinkMode given.metadata.attributes with
  | false, _, symlink => if symlink then .symlink else .file
  | true, .Anti, _ => .anti
  | true, _, true => .symlink
  | true, .File, false => .file
  | true, .Directory, false => .directory

theorem Given.Enters.listedKind {given : Given} {entry : WriteEntry} (h : given.Enters entry) :
    (writtenKind entry).listingKind = given.listedKind := by
  unfold writtenKind Given.listedKind
  rw [h.stream, h.kind, h.metadata]
  cases given.data.isEmpty <;> cases given.kind <;>
    cases FilesInfo.hasSymlinkMode given.metadata.attributes <;> rfl

theorem Given.Enters.nameBytes {given : Given} {entry : WriteEntry} (h : given.Enters entry) :
    Write.nameBytes entry = utf16le given.name := by
  unfold Write.nameBytes
  rw [h.rawName, h.name]

theorem map_zipIdx_enters {α : Type} {f : WriteEntry × ℕ → α} {g : Given × ℕ → α} {given : List Given}
    {entries : List WriteEntry} (h : List.Forall₂ Given.Enters given entries)
    (hfg : ∀ given entry i, Given.Enters given entry → f (entry, i) = g (given, i)) : ∀ k,
    (entries.zipIdx k).map f = (given.zipIdx k).map g := by
  induction h with
  | nil => exact fun _ => rfl
  | cons hfirst _ ih =>
    intro k
    rw [List.zipIdx_cons, List.zipIdx_cons, List.map_cons, List.map_cons, hfg _ _ _ hfirst, ih (k + 1)]

theorem streamIndices_given (outside : Outside) {given : List Given} {entries : List WriteEntry}
    (h : List.Forall₂ Given.Enters given entries) :
    streamIndices entries = (givenFiles outside given).map FolderFile.entryIndex := by
  have hmap : (entries.zipIdx.map fun placed => (placed.1.stream.hasStream, placed.2)) =
      given.zipIdx.map fun placed => (!placed.1.data.isEmpty, placed.2) :=
    map_zipIdx_enters h (fun given entry i henters => by dsimp only; rw [henters.stream]) 0
  have hsame := congrArg (fun l => (l.filter Prod.fst).map Prod.snd) hmap
  rw [List.filter_map, List.filter_map, List.map_map, List.map_map] at hsame
  unfold streamIndices givenFiles givenData
  rw [List.map_map, List.map_map]
  exact hsame

end Write

section
variable {outside : Outside} {given : List Given}

theorem CompletedFolder.files_indices {folder : CompletedFolder} (h : Sound folder) :
    folder.files.map FolderFile.entryIndex = folder.fileIndices := by
  obtain ⟨w, hfolder⟩ := h
  unfold Write.CompletedFolder.files
  rw [List.map_map]
  refine (List.map_fst_zip ?_)
  rw [List.length_zip, hfolder.fileSizes, hfolder.fileCrcs, Nat.min_self]

/-- An archive that is finished: its entries are those that were given, its folders hold their data, and the
header of both was written behind the packed streams. -/
structure Finished (outside : Outside) (prepared : PreparedArchiveOptions) (start : Sink) (given : List Given)
    (entries : List WriteEntry) (stored : List Stored) (folders : List CompletedFolder) (w' : ArchiveWriter) :
    Prop where
  enters : List.Forall₂ Given.Enters given entries
  stores : List.Forall₂ (Stored.In outside prepared) stored folders
  files : stored.flatMap Stored.files = givenData given
  written : ∃ size w, StreamsOut start stored w.output ∧ packedSize folders = .ok size ∧
    writeNextHeader outside (buildHeader entries folders) size entries.length prepared w = (.ok (), w')

theorem finish_finishes {start : Sink} {w w' : ArchiveWriter}
    (hw : HoldsGiven outside start given (givenData given) [] w)
    (h : ArchiveWriter.finish outside w = (.ok (), w')) :
    ∃ stored folders, Finished outside w.prepared start given w.entries stored folders w' := by
  obtain ⟨w₀, w₁, w₂, folders, size, hkept, hsealed, hready, hpacked, houtput, hwrite⟩ := finish_writes h
  obtain ⟨hentries, hkept⟩ := Prod.mk.inj hkept
  obtain ⟨hprepared, hkept⟩ := Prod.mk.inj hkept
  obtain ⟨hstate, hstart⟩ := Prod.mk.inj hkept
  have hw₀ : HoldsGiven outside start given (givenData given) [] w₀ := by
    unfold HoldsGiven
    rw [hentries, hprepared, hstate, hstart]
    exact hw
  obtain ⟨-, hfiles⟩ := sealStreamingFolder_holds.ok hw₀ hsealed
  have hprepared₁ : w₁.prepared = w.prepared :=
    (Prod.mk.inj (sealStreamingFolder_keeps.ok hsealed)).2.trans hprepared
  rw [hready, hprepared₁] at hfiles
  obtain ⟨-, stored, hstored, hheld, hout⟩ := hfiles
  exact ⟨stored, folders, hw.1, hstored, hheld, size, w₂, houtput ▸ hout, hpacked, hwrite⟩

theorem writer_finishes {output : Sink} {prepared : PreparedArchiveOptions} {prepare : List PrepareCall}
    {calls : List WriterCall} {w' : ArchiveWriter}
    (hfinish : ArchiveWriter.finish outside
      (writerAfter outside prepare calls (ArchiveWriter.new output prepared)) = (.ok (), w')) :
    ∃ entries stored folders, Finished outside (optionsAfter prepared prepare) output
      (writerGiven outside prepare calls (ArchiveWriter.new output prepared)) entries stored folders w' := by
  have hkept := writerAfter_kept outside output prepared prepare calls
  obtain ⟨stored, folders, hfinished⟩ := finish_finishes (hkept.resolve_left (finish_wrote hfinish).1) hfinish
  rw [writerAfter_options] at hfinished
  exact ⟨_, stored, folders, hfinished⟩

namespace Finished

variable {prepared : PreparedArchiveOptions} {start : Sink} {entries : List WriteEntry} {stored : List Stored}
  {folders : List CompletedFolder} {w' : ArchiveWriter}

theorem wrote (h : Finished outside prepared start given entries stored folders w') :
    WroteHeader outside (buildHeader entries folders) w' := by
  obtain ⟨size, w, -, -, hwrite⟩ := h.written
  exact ⟨_, _, _, w, hwrite⟩

theorem wired (h : Finished outside prepared start given entries stored folders w') :
    ∃ wired, List.Forall₂ Consistent folders wired := by
  have hstores := h.stores
  clear h
  induction hstores with
  | nil => exact ⟨[], .nil⟩
  | cons hfirst _ ih =>
    obtain ⟨w, hw⟩ := hfirst.sound
    obtain ⟨wired, hwired⟩ := ih
    exact ⟨w :: wired, .cons hw hwired⟩

theorem folderFiles (h : Finished outside prepared start given entries stored folders w') :
    folders.flatMap CompletedFolder.files = givenFiles outside given := by
  unfold givenFiles
  rw [← h.files]
  have hstores := h.stores
  clear h
  induction hstores with
  | nil => rfl
  | cons hfirst _ ih =>
    rw [List.flatMap_cons, List.flatMap_cons, List.map_append, ih]
    exact congrArg (· ++ _) hfirst.files

theorem indices (h : Finished outside prepared start given entries stored folders w') :
    folders.flatMap CompletedFolder.fileIndices = streamIndices entries := by
  rw [streamIndices_given outside h.enters, ← h.folderFiles, List.map_flatMap]
  refine List.flatMap_congr fun folder hfolder => ?_
  obtain ⟨_, -, hin⟩ := exists_related h.stores.flip hfolder
  exact (CompletedFolder.files_indices hin.sound).symm

theorem total (h : Finished outside prepared start given entries stored folders w') :
    fileTotal folders = (givenFiles outside given).length := by
  have hlength := congrArg List.length h.indices
  rw [streamIndices_given outside h.enters, List.length_map, List.length_flatMap] at hlength
  exact hlength

theorem names (h : Finished outside prepared start given entries stored folders w')
    (hnames : ∀ entry ∈ given, '\x00' ∉ entry.name.toList) :
    ∀ e ∈ entries, e.rawName = none → (0 : UInt16) ∉ encodeUtf16 e.name := by
  intro e he _
  obtain ⟨entry, hentry, henter⟩ := exists_related h.enters.flip he
  rw [encodeUtf16_zero, henter.name]
  exact hnames entry hentry

end Finished

end

def twoGiven : List Given :=
  [{ name := "a", kind := .File, metadata := EntryMeta.default, data := [1, 2, 3] },
   { name := "d", kind := .Directory, metadata := EntryMeta.default, data := [] }]

end R7z
