import R7z.Write.Frames
import R7z.FilesRoundTrip

/-! The names of the entries a writer was given, from the calls to the header. -/

namespace R7z

open Wire Effect Effect.Machine Write

section
variable {outside : Outside}

def Listing (w : ArchiveWriter) : List WriteEntry × PreparedArchiveOptions := (w.entries, w.prepared)

instance : Inward Listing := ⟨fun _ _ _ => rfl⟩

instance : Stateless fun w w' => Listing w' = Listing w where
  state _ _ := rfl

theorem setState_keeps (state : WriterState) : Keeps Listing (setState state) :=
  Keeps.modify fun _ => rfl

theorem sealStreamingFolder_keeps : Keeps Listing (ArchiveWriter.sealStreamingFolder outside) :=
  sealStreamingFolder_moves (R := fun w w' => Listing w' = Listing w)

theorem ensureStreamingFolder_keeps (plan : FolderPlan) :
    Keeps Listing (ArchiveWriter.ensureStreamingFolder outside plan) := by
  refine Keeps.get.bind fun w => ?_
  cases w.state with
  | Ready completed =>
    exact (setState_keeps _).bind fun _ => (reserveSignature_keeps _).bind fun _ =>
      (folder_encoded_keeps _ _).bind fun _ => setState_keeps _
  | Active => exact Keeps.pure _
  | Failed => exact Keeps.fail _

theorem recordStream_keeps (entryIndex : WriteEntryIndex) (size : UInt64) (checksum : UInt32) :
    Keeps Listing (ArchiveWriter.recordStream entryIndex size checksum) :=
  recordStream_moves (R := fun w w' => Listing w' = Listing w) entryIndex size checksum

theorem finishEntryFolderAccounting_keeps (size : UInt64) :
    Keeps Listing (ArchiveWriter.finishEntryFolderAccounting outside size) :=
  finishEntryFolderAccounting_moves (R := fun w w' => Listing w' = Listing w) size

theorem writeChunks_keeps (reader : Reader) (chunk seen : List UInt8) (size : UInt64) :
    Keeps Listing (ArchiveWriter.writeChunks outside reader chunk seen size) :=
  writeChunks_moves (R := fun w w' => Listing w' = Listing w) reader chunk seen size

/-! Names given and names kept -/

def Named (names : List String) (w : ArchiveWriter) : Prop :=
  w.entries.map (fun e => (e.rawName, e.name)) = names.map fun name => (none, name)

theorem keeps_named {α : Type} {m : WriterM α} (h : Keeps Listing m) (names : List String) :
    Meets (Named names) m (fun _ => Named names) fun _ => Named names :=
  h.meets fun l => l.1.map (fun e => (e.rawName, e.name)) = names.map fun name => (none, name)

theorem pushEntry_named {names : List String} {entry : WriteEntry} {E : R7zError → ArchiveWriter → Prop}
    (hraw : entry.rawName = none) :
    Meets (Named names) (pushEntry entry) (fun _ => Named (names ++ [entry.name])) E := by
  refine Meets.modify fun w hw => ?_
  change (w.entries ++ [entry]).map _ = _
  rw [List.map_append, List.map_append, hw, List.map_singleton, List.map_singleton, hraw]

theorem appendEmptyEntry_named (names : List String) (entry : ArchiveEntry) :
    Meets (Named names) (ArchiveWriter.appendEmptyEntry outside entry)
      (fun _ => Named (names ++ [entry.name])) fun _ => Named names :=
  (keeps_named external_keeps names).bind fun _ => (keeps_named nextFolderId_keeps names).bind fun _ =>
    pushEntry_named rfl

theorem keeps_named_any {α : Type} {m : WriterM α} (h : Keeps Listing m) (names : List String) :
    Meets (Named names) m (fun _ => Named names) fun _ _ => True :=
  (keeps_named h names).mono (fun _ hw => hw) (fun _ _ hw => hw) fun _ _ _ => trivial

theorem pushStreaming_named (names : List String) (name : String) (metadata : EntryMeta) (size : UInt64)
    (checksum : UInt32) :
    Meets (Named names) (ArchiveWriter.pushStreaming name metadata size checksum)
      (fun _ => Named (names ++ [name])) fun _ _ => True :=
  (keeps_named_any Keeps.get names).bind fun _ => (keeps_named_any nextFolderId_keeps names).bind fun _ =>
    (pushEntry_named rfl).bind fun _ => keeps_named_any (recordStream_keeps _ _ _) _

theorem appendStreaming_named (names : List String) (name : String) (reader : Reader)
    (metadata : EntryMeta) (plan : FolderPlan) :
    Meets (Named names) (ArchiveWriter.appendStreaming outside name reader metadata plan)
      (fun _ => Named (names ++ [name])) fun _ _ => True := by
  refine (keeps_named_any (read_keeps reader) names).bind fun first => ?_
  split
  · cases plan with
    | Preplanned folderSize =>
      exact (keeps_named_any (ensureStreamingFolder_keeps _) names).bind fun _ =>
        pushStreaming_named names name metadata _ _
    | Automatic =>
      exact (keeps_named_any nextFolderId_keeps names).bind fun _ => pushEntry_named rfl
  · refine (keeps_named_any (ensureStreamingFolder_keeps plan) names).bind fun _ =>
      (keeps_named_any (writeChunks_keeps _ _ _ _) names).bind fun ⟨data, size⟩ =>
        (pushStreaming_named names name metadata _ _).bind fun _ => ?_
    cases plan with
    | Preplanned folderSize => exact Meets.pure fun _ hw => hw
    | Automatic => exact keeps_named_any (finishEntryFolderAccounting_keeps size) _

theorem appendFile_named (names : List String) (name : String) (reader : Reader) (metadata : EntryMeta) :
    Meets (Named names) (ArchiveWriter.appendFile outside name reader metadata)
      (fun _ => Named (names ++ [name])) fun _ w => w.state = .Failed := by
  refine Meets.onError ?_
  have happend := @appendStreaming_named outside names name reader metadata .Automatic
  refine Meets.bind (keeps_named Keeps.get names |>.mono (fun _ hw => hw) (fun _ _ hw => hw) fun _ _ _ => rfl)
    fun w => ?_
  cases w.state with
  | Failed => exact Meets.fail fun _ _ => rfl
  | Ready => exact happend.mono (fun _ hw => hw) (fun _ _ hw => hw) fun _ _ _ => rfl
  | Active => exact happend.mono (fun _ hw => hw) (fun _ _ hw => hw) fun _ _ _ => rfl

/-- A call that may add one name keeps the record of the names, a failed call the record before it. -/
def KeepsRecord (m : WriterM Unit) (name : Option String) : Prop := ∀ names,
  Meets (fun w => w.state = .Failed ∨ Named names w) m
    (fun _ w => w.state = .Failed ∨ Named (names ++ name.toList) w)
    fun _ w => w.state = .Failed ∨ Named names w

def Failed (w : ArchiveWriter) : Prop := w.state = .Failed

def StaysFailed (m : WriterM Unit) : Prop := Meets Failed m (fun _ => Failed) fun _ => Failed

theorem KeepsRecord.of_named {m : WriterM Unit} {name : Option String} (hfailed : StaysFailed m)
    (h : ∀ names, Meets (Named names) m (fun _ => Named (names ++ name.toList))
      fun _ w => Failed w ∨ Named names w) : KeepsRecord m name := by
  intro names w hw
  rcases hw with hw | hw
  · exact (hfailed w hw).mono (fun _ _ hw' => .inl hw') fun _ _ hw' => .inl hw'
  · exact (h names w hw).mono (fun _ _ hw' => .inr hw') fun _ _ hw' => hw'

def Refuses (m : WriterM Unit) : Prop := Meets Failed m (fun _ _ => False) fun _ => Failed

theorem Refuses.staysFailed {m : WriterM Unit} (h : Refuses m) : StaysFailed m :=
  h.post fun _ _ hfalse => hfalse.elim

theorem external_staysFailed : StaysFailed (external outside) :=
  (external_keeps : Keeps ArchiveWriter.state (external outside)).meets (· = .Failed)

theorem nextFolderId_refuses :
    Meets Failed ArchiveWriter.nextFolderId (fun _ _ => False) fun _ => Failed := by
  refine Meets.get_bind fun w hw => ?_
  rw [hw]
  exact hw

theorem appendEmptyEntry_refuses (entry : ArchiveEntry) :
    Refuses (ArchiveWriter.appendEmptyEntry outside entry) :=
  external_staysFailed.bind fun _ => nextFolderId_refuses.bind fun _ _ hfalse => hfalse.elim

theorem newFolder_refuses : Refuses (ArchiveWriter.newFolder outside) := by
  refine Meets.get_bind fun w hw => ?_
  have hfail : Meets Failed (ArchiveWriter.completedFolders outside w.prepared w.state)
      (fun _ _ => False) fun _ => Failed := by
    rw [hw]
    exact Meets.fail fun _ hw' => hw'
  have hset : Meets (fun _ => True) (setState .Failed) (fun _ => Failed) fun _ => Failed :=
    Meets.modify fun _ _ => rfl
  exact (hset.bind fun _ => external_staysFailed.bind fun _ =>
    hfail.bind fun completed _ h => h.elim) w trivial

theorem appendFile_refuses (name : String) (reader : Reader) (metadata : EntryMeta) :
    Refuses (ArchiveWriter.appendFile outside name reader metadata) := by
  refine Meets.onError (Meets.get_bind fun w hw => ?_)
  rw [hw]
  exact rfl

theorem appendFile_record (name : String) (reader : Reader) (metadata : EntryMeta) :
    KeepsRecord (ArchiveWriter.appendFile outside name reader metadata) (some name) :=
  .of_named (appendFile_refuses name reader metadata).staysFailed fun names =>
    (appendFile_named names name reader metadata).mono (fun _ hw => hw) (fun _ _ hw => hw)
      fun _ _ hw => .inl hw

theorem appendEmptyEntry_record (entry : ArchiveEntry) :
    KeepsRecord (ArchiveWriter.appendEmptyEntry outside entry) (some entry.name) :=
  .of_named (appendEmptyEntry_refuses entry).staysFailed fun names =>
    (appendEmptyEntry_named names entry).mono (fun _ hw => hw) (fun _ _ hw => hw) fun _ _ hw => .inr hw

theorem prepareCall_record (call : PrepareCall) : KeepsRecord (call.run outside) call.name := by
  cases call with
  | appendEmptyEntry entry => exact appendEmptyEntry_record entry
  | setCompression prepared =>
    intro names
    refine Meets.bind (Q := fun _ w => Failed w ∨ Named names w)
      (Meets.ofExcept (fun _ _ _ hw => hw) fun _ _ _ hw => hw) fun _ => Meets.modify fun w hw => ?_
    rw [PrepareCall.name, Option.toList_none, List.append_nil]
    exact hw

theorem writerCall_record (call : WriterCall) : KeepsRecord (call.run outside) call.name := by
  cases call with
  | appendEmptyEntry entry => exact appendEmptyEntry_record entry
  | appendFile name reader metadata => exact appendFile_record name reader metadata
  | append name reader => exact appendFile_record name reader _
  | appendEntry name reader metadata => exact appendFile_record name reader metadata
  | appendArchiveEntry entry reader =>
    change KeepsRecord (ArchiveWriter.appendArchiveEntry outside entry reader) (some entry.name)
    unfold ArchiveWriter.appendArchiveEntry
    split
    · exact fun _ => Meets.fail fun _ hw => hw
    · exact appendFile_record _ _ _
  | appendSymlink name target metadata =>
    exact fun names => Meets.get_bind fun w hw => appendFile_record name _ _ names w hw
  | appendEmptyFile name metadata => exact appendEmptyEntry_record _
  | appendDirectory name metadata => exact appendEmptyEntry_record _
  | appendAntiItem name metadata => exact appendEmptyEntry_record _
  | newFolder =>
    refine .of_named newFolder_refuses.staysFailed fun names => ?_
    have hkeeps := keeps_named (@sealStreamingFolder_keeps outside) names
    rw [WriterCall.name, Option.toList_none, List.append_nil]
    exact hkeeps.mono (fun _ hw => hw) (fun _ _ hw => hw) fun _ _ hw => .inr hw

def givenNames {ι : Type} (name : ι → Option String) (calls : List ι)
    (results : List (Except R7zError Unit)) : List String :=
  (calls.zip results).flatMap fun (call, result) =>
    match result with
    | .ok () => (name call).toList
    | .error _ => []

/-- Over a run with failing calls, the entries are those of the calls that succeeded. -/
theorem run_record {ι : Type} {run : ι → WriterM Unit} {name : ι → Option String}
    (hstep : ∀ call, KeepsRecord (run call) (name call)) (calls : List ι) {names : List String}
    {w : ArchiveWriter} (hw : Failed w ∨ Named names w) :
    Failed (runAll run calls w).2 ∨
      Named (names ++ givenNames name calls (runAll run calls w).1) (runAll run calls w).2 := by
  induction calls generalizing names w with
  | nil =>
    change Failed w ∨ Named (names ++ []) w
    rwa [List.append_nil]
  | cons call calls ih =>
    have hcall := hstep call names w hw
    change Failed (runAll run calls (run call w).2).2 ∨ Named (names ++ givenNames name (call :: calls)
      ((run call w).1 :: (runAll run calls (run call w).2).1)) (runAll run calls (run call w).2).2
    rcases hm : run call w with ⟨e | a, w'⟩
    · rw [hm] at hcall
      exact ih hcall
    · rw [hm] at hcall
      have hrest := ih hcall
      rw [List.append_assoc] at hrest
      exact hrest

/-! The header of a finished writer -/

/-- The end of a successful `finish`: this is the header that was written, as it is or encoded. -/
def WroteHeader (outside : Outside) (header : List UInt8) (w' : ArchiveWriter) : Prop :=
  ∃ size numEntries prepared w,
    writeNextHeader outside header size numEntries prepared w = (.ok (), w')

/-- What `finish` hands on to be written: the entries, and the folders with the open one completed. -/
def Write.ArchiveWriter.sealed (outside : Outside) : WriterM (List WriteEntry × List CompletedFolder) := do
  external outside
  let w ← get
  ArchiveWriter.sealStreamingFolder outside
  let folders ← takeFolders
  pure (w.entries, folders)

theorem takeFolders_ok {w w' : ArchiveWriter} {folders : List CompletedFolder}
    (h : takeFolders w = (.ok folders, w')) : w.state = .Ready folders := by
  obtain ⟨_, _, hget, h⟩ := bind_eq_ok.mp h
  cases hget
  obtain ⟨_, _, _, h⟩ := bind_eq_ok.mp h
  cases hw : w.state with
  | Ready completed =>
    rw [hw] at h
    cases h
    rfl
  | Active | Failed =>
    rw [hw] at h
    cases h

/-- The steps of a successful `finish`: the open folder is completed, and the header is written for
the folders there are then. -/
theorem finish_steps {w w' : ArchiveWriter} (h : ArchiveWriter.finish outside w = (.ok (), w')) :
    ∃ w₀ w₁ folders, w₀.state = w.state ∧ Listing w₀ = Listing w ∧ ¬Failed w ∧
      ArchiveWriter.sealStreamingFolder outside w₀ = (.ok (), w₁) ∧ w₁.state = .Ready folders ∧
      (ArchiveWriter.sealed outside w).1 = .ok (w.entries, folders) ∧
      WroteHeader outside (buildHeader w.entries folders) w' := by
  obtain ⟨_, w₀, h₀, hrest⟩ := bind_eq_ok.mp h
  obtain ⟨w₁, _, hget, hseal⟩ := bind_eq_ok.mp hrest
  cases hget
  have hstate : w₀.state = w.state := (@external_keeps outside _ ArchiveWriter.state _).ok h₀
  have hlisting : Listing w₀ = Listing w := (@external_keeps outside _ Listing _).ok h₀
  have hentries : w₀.entries = w.entries := congrArg Prod.fst hlisting
  have hready : ¬Failed w := by
    intro hfailed
    rw [hstate, hfailed] at hseal
    cases hseal
  have hgo : (do
      ArchiveWriter.sealStreamingFolder outside
      let folders ← takeFolders
      finishStreamedArchive outside w₀.entries folders w₀.prepared) w₀ = (.ok (), w') := by
    cases hw : w₀.state with
    | Failed => exact absurd (hstate.symm.trans hw) hready
    | Ready completed =>
      rw [hw] at hseal
      exact hseal
    | Active folder completed progress =>
      rw [hw] at hseal
      exact hseal
  obtain ⟨_, w₂, hsealed, htake⟩ := bind_eq_ok.mp hgo
  obtain ⟨folders, w₃, htaken, hfinish⟩ := bind_eq_ok.mp htake
  obtain ⟨_, w₄, _, hsize⟩ := bind_eq_ok.mp hfinish
  obtain ⟨size, w₅, _, hwrite⟩ := bind_eq_ok.mp hsize
  have hgiven : ArchiveWriter.sealed outside w = (.ok (w₀.entries, folders), w₃) := by
    rw [ArchiveWriter.sealed, bind_of_ok h₀, bind_of_ok (rfl : Machine.get w₀ = (.ok w₀, w₀)),
      bind_of_ok hsealed, bind_of_ok htaken]
    rfl
  rw [hentries] at hwrite hgiven
  exact ⟨w₀, w₂, folders, hstate, hlisting, hready, hsealed, takeFolders_ok htaken,
    congrArg Prod.fst hgiven, size, _, _, w₅, hwrite⟩

theorem finish_wrote {w w' : ArchiveWriter} (h : ArchiveWriter.finish outside w = (.ok (), w')) :
    ¬Failed w ∧ ∃ folders, WroteHeader outside (buildHeader w.entries folders) w' := by
  obtain ⟨_, _, folders, _, _, hready, _, _, _, hwrote⟩ := finish_steps h
  exact ⟨hready, folders, hwrote⟩

end

/-! Names in the header -/

def headerFront (folders : List CompletedFolder) : List UInt8 :=
  [0x01] ++ (if folders.isEmpty then [] else [0x04] ++ writeStreamsInfo folders)

theorem buildHeader_eq (entries : List WriteEntry) (folders : List CompletedFolder) :
    buildHeader entries folders = headerFront folders ++ (writeFilesInfo entries ++ [0x00]) := by
  rw [buildHeader, headerFront, List.append_assoc, List.append_assoc]

/-- The file section at its place in a header. -/
theorem buildHeader_fileSection {rows : List WriteEntry} {folders : List CompletedFolder}
    (hnames : ∀ row ∈ rows, UnitsWithoutNul (nameBytes row)) (hlen : (buildHeader rows folders).length < 2 ^ 64) :
    ∃ rest, FilesInfo.parse ⟨0, buildHeader rows folders⟩
        ⟨(headerFront folders).length, (buildHeader rows folders).drop (headerFront folders).length⟩ =
          .ok (writtenFiles rows, rest) ∧
      (writtenFiles rows).numFiles.toNat = rows.length ∧
      ∀ j row, rows[j]? = some row → ListedAs (writtenFiles rows) j row := by
  rw [buildHeader_eq] at hlen ⊢
  have hsection : (writeFilesInfo rows).length < 2 ^ 64 := by
    rw [List.length_append, List.length_append] at hlen
    omega
  have hmem : (Window.within ⟨0, headerFront folders ++ (writeFilesInfo rows ++ [0x00])⟩).mem
      ⟨(headerFront folders).length, writeFilesInfo rows ++ [0x00]⟩ :=
    (Window.within _).suffix (Window.within_self _) ⟨rfl, (Nat.zero_add _).symm⟩
  have hread := @writeFilesInfo_reads rows _ [] hnames hsection _ _ hmem
  have hcount := lt_of_le_of_lt (length_le_writeFilesInfo rows) hsection
  rw [List.drop_left]
  exact ⟨_, hread, UInt64.toNat_ofNat_of_lt' hcount, fun _ _ hrow => writtenFiles_listedAs hcount hnames hrow⟩

/-- The file section of a header parses and yields these names as UTF-16, in order. -/
def ListsNames (folders : List CompletedFolder) (header : List UInt8) (names : List String) : Prop :=
  ∃ files rest, FilesInfo.parse ⟨0, header⟩
      ⟨(headerFront folders).length, header.drop (headerFront folders).length⟩ = .ok (files, rest) ∧
    files.numFiles.toNat = names.length ∧
    ∀ (i : ℕ) (name : String), names[i]? = some name →
      files.nameSlices[i]? = some (some (utf16le name))

theorem nextName_valid : ∀ {data name : List UInt8}, (nextName data).1 = some name →
    UnitsWithoutNul name
  | [], _, h => nomatch h
  | [_], _, h => nomatch h
  | a :: b :: rest, name, h => by
    rw [nextName] at h
    split at h
    · cases h
      exact trivial
    · next hunit =>
      obtain ⟨tail, htail, rfl⟩ := Option.map_eq_some_iff.mp h
      exact ⟨hunit, nextName_valid htail⟩

theorem nameSlicesFrom_valid : ∀ {n : ℕ} {data : List UInt8} {i : ℕ} {name : List UInt8},
    (nameSlicesFrom n data)[i]? = some (some name) → UnitsWithoutNul name
  | 0, _, _, _, h => nomatch h
  | _ + 1, _, 0, _, h => nextName_valid (Option.some.inj h)
  | n + 1, _, _ + 1, _, h => nameSlicesFrom_valid (n := n) h

theorem units_of_unitsWithoutNul : ∀ {units : List UInt16},
    UnitsWithoutNul (units.flatMap fun unit => toLeBytes 2 unit.toNat) → (0 : UInt16) ∉ units
  | [], _ => List.not_mem_nil
  | unit :: units, h => by
    rw [List.flatMap_cons, unit_bytes] at h
    rw [List.mem_cons, not_or]
    refine ⟨fun hzero => h.1 ?_, units_of_unitsWithoutNul h.2⟩
    rw [← hzero]
    exact ⟨rfl, rfl⟩

theorem charUtf16_zero (c : Char) : (0 : UInt16) ∈ charUtf16 c ↔ c = '\x00' := by
  have hzero : c = '\x00' ↔ c.toNat = 0 := by
    constructor
    · rintro rfl
      rfl
    · intro h
      exact Char.ext (UInt32.toNat_inj.mp h)
  have hmax : c.toNat < 0x110000 := by
    rcases c.valid with h | ⟨_, h⟩
    · exact lt_trans h (by decide)
    · exact h
  have hofNat (n : ℕ) (hn : n < 0x10000) : (0 : UInt16) = UInt16.ofNat n ↔ n = 0 := by
    rw [← UInt16.toNat_inj, UInt16.toNat_ofNat_of_lt' hn]
    exact eq_comm
  unfold charUtf16
  rw [hzero]
  split
  · next h => rw [List.mem_singleton, hofNat _ h]
  · next h =>
    simp only [List.mem_cons, List.not_mem_nil, or_false]
    rw [hofNat _ (by omega), hofNat _ (by omega)]
    omega

theorem encodeUtf16_zero (s : String) : (0 : UInt16) ∈ encodeUtf16 s ↔ '\x00' ∈ s.toList := by
  unfold encodeUtf16
  rw [List.mem_flatMap]
  constructor
  · rintro ⟨c, hc, h⟩
    exact (charUtf16_zero c).mp h ▸ hc
  · exact fun h => ⟨_, h, (charUtf16_zero _).mpr rfl⟩

theorem listsNames_iff {entries : List WriteEntry} {folders : List CompletedFolder} {names : List String}
    (hnamed : entries.map (fun e => (e.rawName, e.name)) = names.map fun name => (none, name))
    (hlen : (buildHeader entries folders).length < 2 ^ 64) :
    ListsNames folders (buildHeader entries folders) names ↔ ∀ name ∈ names, '\x00' ∉ name.toList := by
  have hcount : entries.length = names.length := by
    have := congrArg List.length hnamed
    rwa [List.length_map, List.length_map] at this
  have hentry {i : ℕ} {name : String} (hi : names[i]? = some name) :
      ∃ e, entries[i]? = some e ∧ e.rawName = none ∧ e.name = name := by
    have hget := congrArg (·[i]?) hnamed
    simp only [List.getElem?_map, hi, Option.map_some] at hget
    obtain ⟨e, he, heq⟩ := Option.map_eq_some_iff.mp hget
    exact ⟨e, he, congrArg Prod.fst heq, congrArg Prod.snd heq⟩
  constructor
  · rintro ⟨files, rest, _, _, hslices⟩ name hmem
    obtain ⟨i, hi⟩ := List.getElem?_of_mem hmem
    have hvalid := nameSlicesFrom_valid (hslices i name hi)
    exact fun hnul => units_of_unitsWithoutNul hvalid ((encodeUtf16_zero name).mpr hnul)
  · intro hnul
    have hvalid : ∀ e ∈ entries, UnitsWithoutNul (nameBytes e) := by
      intro e he
      refine nameBytes_valid fun _ hzero => ?_
      have hmem : (e.rawName, e.name) ∈ names.map fun name => ((none : Option RawEntryName), name) := by
        rw [← hnamed]
        exact List.mem_map_of_mem he
      obtain ⟨name, hname, heq⟩ := List.mem_map.mp hmem
      have hsame : name = e.name := congrArg Prod.snd heq
      exact hnul name hname ((encodeUtf16_zero name).mp (hsame ▸ hzero))
    obtain ⟨rest, hparse, hlength, hlisted⟩ := buildHeader_fileSection hvalid hlen
    refine ⟨writtenFiles entries, rest, hparse, hlength.trans hcount, fun i name hi => ?_⟩
    obtain ⟨e, he, hraw, rfl⟩ := hentry hi
    have hname := (hlisted i e he).name
    rwa [hraw] at hname

/-! The builder -/

theorem planFolders_map {β : Type} {f : WriteEntry → β}
    (hf : ∀ entry folderId, f { entry with folderId } = f entry) {solid : SolidMode} :
    ∀ {entries planned : List WriteEntry} {folderId : WriteFolderId} {progress : FolderProgress},
      planFolders solid folderId progress entries = .ok planned → planned.map f = entries.map f
  | [], planned, _, _, h => by
    cases h
    rfl
  | entry :: entries, planned, folderId, progress, h => by
    obtain ⟨⟨folderId', progress'⟩, _, hrest⟩ := except_bind_eq_ok.mp h
    obtain ⟨planned', hplanned, hcons⟩ := except_bind_eq_ok.mp hrest
    cases hcons
    rw [List.map_cons, List.map_cons, planFolders_map hf hplanned, hf]

section
variable {outside : Outside}

theorem advanceTo_keeps (folderId : WriteFolderId) : Keeps Listing (advanceTo outside folderId) := by
  refine nextFolderId_keeps.bind fun next => ?_
  split
  · exact Keeps.fail _
  · split
    · exact Keeps.pure _
    · refine sealStreamingFolder_keeps.bind fun _ => nextFolderId_keeps.bind fun _ => ?_
      split
      · exact Keeps.fail _
      · exact Keeps.pure _

theorem writePlannedEntry_named (names : List String) (sizes : WriteFolderId → UInt64)
    (entry : WriteEntry) :
    Meets (Named names) (writePlannedEntry outside sizes entry)
      (fun _ => Named (names ++ [entry.name])) fun _ _ => True := by
  refine (keeps_named_any (advanceTo_keeps _) names).bind fun _ => ?_
  unfold appendBuilderEntry
  cases entry.stream with
  | Buffered data =>
    exact (keeps_named_any Keeps.get names).bind fun w => appendStreaming_named names _ _ _ _
  | Empty =>
    exact (appendEmptyEntry_named names _).mono (fun _ hw => hw) (fun _ _ hw => hw) fun _ _ _ => trivial
  | Streaming => exact Meets.fail fun _ _ => trivial

theorem writePlannedEntries_named (sizes : WriteFolderId → UInt64) (entries : List WriteEntry) :
    Meets (Named []) (forEach (writePlannedEntry outside sizes) entries)
      (fun _ => Named (entries.map WriteEntry.name)) fun _ _ => True := by
  have hloop := Meets.forEach (f := writePlannedEntry outside sizes) (E := fun _ _ => True)
    (I := fun left w => ∃ names, Named names w ∧
      names ++ left.map WriteEntry.name = entries.map WriteEntry.name) entries
    fun entry left => Meets.exists fun names => by
      rintro w ⟨hw, hall⟩
      refine (writePlannedEntry_named names sizes entry w hw).mono (fun _ _ hw' => ?_) fun _ _ _ => trivial
      exact ⟨_, hw', by rw [List.append_assoc]; exact hall⟩
  refine hloop.mono (fun w hw => ⟨[], hw, rfl⟩) (fun _ w => ?_) fun _ _ _ => trivial
  rintro ⟨names, hw, hall⟩
  rw [List.map_nil, List.append_nil] at hall
  exact hall ▸ hw

def BuilderNamed (names : List String) (builder : ArchiveBuilder) : Prop :=
  builder.entries.map (fun e => (e.rawName, e.name)) = names.map fun name => (none, name)

theorem build_steps {builder : ArchiveBuilder} {w' : ArchiveWriter}
    (h : builder.build outside = .ok w') :
    ∃ planned sizes prepared w, entriesWithSolidFolders builder.entries builder.options.solid = .ok planned ∧
      folderSizes planned = .ok sizes ∧ builder.options.prepared = .ok prepared ∧
      forEach (writePlannedEntry outside sizes) planned
        (ArchiveWriter.new { content := [], position := 0 } prepared) = (.ok (), w) ∧
      ArchiveWriter.finish outside w = (.ok (), w') := by
  obtain ⟨planned, hplan, h⟩ := except_bind_eq_ok.mp h
  obtain ⟨sizes, hsizes, h⟩ := except_bind_eq_ok.mp h
  obtain ⟨prepared, hprepared, h⟩ := except_bind_eq_ok.mp h
  dsimp only at h
  rcases hrun : (do
      forEach (writePlannedEntry outside sizes) planned
      ArchiveWriter.finish outside : WriterM Unit)
    (ArchiveWriter.new { content := [], position := 0 } prepared) with ⟨_ | _, w⟩
  · rw [hrun] at h
    cases h
  · rw [hrun] at h
    cases h
    obtain ⟨_, w₁, hwrite, hfinish⟩ := bind_eq_ok.mp hrun
    exact ⟨planned, sizes, prepared, w₁, hplan, hsizes, hprepared, hwrite, hfinish⟩

def Write.ArchiveBuilder.sealed (outside : Outside) (builder : ArchiveBuilder) :
    Except R7zError (List WriteEntry × List CompletedFolder) := do
  let entries ← entriesWithSolidFolders builder.entries builder.options.solid
  let sizes ← folderSizes entries
  let prepared ← builder.options.prepared
  let writeEntries : WriterM (List WriteEntry × List CompletedFolder) := do
    forEach (writePlannedEntry outside sizes) entries
    ArchiveWriter.sealed outside
  (writeEntries (ArchiveWriter.new { content := [], position := 0 } prepared)).1

theorem builder_sealed {builder : ArchiveBuilder} {planned : List WriteEntry}
    {sizes : WriteFolderId → UInt64} {prepared : PreparedArchiveOptions} {w : ArchiveWriter}
    (hplan : entriesWithSolidFolders builder.entries builder.options.solid = .ok planned)
    (hsizes : folderSizes planned = .ok sizes) (hprepared : builder.options.prepared = .ok prepared)
    (hwrite : forEach (writePlannedEntry outside sizes) planned
      (ArchiveWriter.new { content := [], position := 0 } prepared) = (.ok (), w)) :
    builder.sealed outside = (ArchiveWriter.sealed outside w).1 := by
  unfold ArchiveBuilder.sealed
  rw [hplan]
  dsimp only [bind, Except.bind]
  rw [hsizes, hprepared]
  exact congrArg Prod.fst (bind_of_ok hwrite)

theorem build_wrote {builder : ArchiveBuilder} {names : List String} {w' : ArchiveWriter}
    (hnamed : BuilderNamed names builder) (h : builder.build outside = .ok w') :
    ∃ entries folders, WroteHeader outside (buildHeader entries folders) w' ∧
      entries.map (fun e => (e.rawName, e.name)) = names.map fun name => (none, name) := by
  obtain ⟨planned, sizes, prepared, w₁, hplan, _, _, hwrite, hfinish⟩ := build_steps h
  have hplanned : planned.map (fun e => (e.rawName, e.name)) = names.map fun name => (none, name) :=
    (planFolders_map (fun _ _ => rfl) hplan).trans hnamed
  have hnames : planned.map WriteEntry.name = names := by
    have hsnd := congrArg (List.map Prod.snd) hplanned
    rw [List.map_map, List.map_map] at hsnd
    exact hsnd.trans (List.map_id names)
  have hnew : Named [] (ArchiveWriter.new { content := [], position := 0 } prepared) := rfl
  have hw₁ : Named names w₁ := hnames ▸ (writePlannedEntries_named sizes planned).ok hnew hwrite
  obtain ⟨_, folders, hwrote⟩ := finish_wrote hfinish
  exact ⟨w₁.entries, folders, hwrote, hw₁⟩

end

def builderNames (calls : List BuilderCall) : List String := calls.flatMap fun call => call.name.toList

theorem push_named {builder : ArchiveBuilder} {names : List String} (h : BuilderNamed names builder)
    (name : String) (kind : Write.EntryKind) (metadata : EntryMeta) (stream : WriteEntryStream) :
    BuilderNamed (names ++ [name]) (builder.push name kind metadata stream) := by
  change (builder.entries ++ [_]).map _ = _
  rw [List.map_append, h, List.map_append]
  rfl

theorem builderCall_named {call : BuilderCall} {builder builder' : ArchiveBuilder}
    {names : List String} (h : BuilderNamed names builder) (hrun : call.run builder = .ok builder') :
    BuilderNamed (names ++ call.name.toList) builder' := by
  have hsame (builder' : ArchiveBuilder) (hentries : builder'.entries = builder.entries) :
      BuilderNamed (names ++ (none : Option String).toList) builder' := by
    rw [Option.toList_none, List.append_nil, BuilderNamed, hentries]
    exact h
  cases call with
  | options value =>
    cases hrun
    exact hsame _ rfl
  | compression value =>
    cases hrun
    exact hsame _ rfl
  | addEntry entry data =>
    obtain ⟨added, hadded, hpush⟩ := except_bind_eq_ok.mp hrun
    cases hpush
    have hname : (added.rawName, added.name) = (none, entry.name) := by
      unfold writeEntryFromArchiveEntry at hadded
      dsimp only at hadded
      split at hadded
      · cases hadded
      · cases hadded
        rfl
    change (builder.entries ++ [added]).map _ = _
    rw [List.map_append, h, List.map_append, List.map_singleton, hname]
    rfl
  | addFile name data =>
    cases hrun
    exact push_named h ..
  | addFileEntry name data metadata =>
    cases hrun
    exact push_named h ..
  | addSymlink name target metadata =>
    cases hrun
    exact push_named h ..
  | addEmptyFile name metadata =>
    cases hrun
    exact push_named h ..
  | addDirectory name metadata =>
    cases hrun
    exact push_named h ..
  | addAntiItem name metadata =>
    cases hrun
    exact push_named h ..

theorem builderCalls_named (calls : List BuilderCall) {builder builder' : ArchiveBuilder}
    {names : List String} (h : BuilderNamed names builder)
    (hrun : calls.foldlM BuilderCall.run builder = .ok builder') :
    BuilderNamed (names ++ builderNames calls) builder' := by
  induction calls generalizing builder names with
  | nil =>
    cases hrun
    change BuilderNamed (names ++ []) builder'
    rwa [List.append_nil]
  | cons call calls ih =>
    rw [List.foldlM_cons] at hrun
    obtain ⟨next, hnext, hrest⟩ := except_bind_eq_ok.mp hrun
    have htail := ih (builderCall_named h hnext) hrest
    rw [List.append_assoc] at htail
    exact htail

/-- The names that calls without an error gave to a writer. -/
def writerNames (outside : Outside) (prepare : List PrepareCall) (calls : List WriterCall)
    (w : ArchiveWriter) : List String :=
  let first := runAll (PrepareCall.run outside) prepare w
  givenNames PrepareCall.name prepare first.1 ++
    givenNames WriterCall.name calls (runAll (WriterCall.run outside) calls first.2).1

def writerAfter (outside : Outside) (prepare : List PrepareCall) (calls : List WriterCall)
    (w : ArchiveWriter) : ArchiveWriter :=
  (runAll (WriterCall.run outside) calls (runAll (PrepareCall.run outside) prepare w).2).2

theorem writerAfter_named {outside : Outside} (prepare : List PrepareCall) (calls : List WriterCall)
    {w : ArchiveWriter} (hw : Named [] w) :
    Failed (writerAfter outside prepare calls w) ∨
      Named (writerNames outside prepare calls w) (writerAfter outside prepare calls w) := by
  have hprepare := run_record (@prepareCall_record outside) prepare (.inr hw)
  exact run_record (@writerCall_record outside) calls hprepare

/-- A finished archive lists the names it was given exactly when none of them holds U+0000: through
the streaming writer after any calls, failed ones included, and through the builder. -/
theorem names_listed_iff (outside : Outside) :
    (∀ (output : Sink) (prepared : PreparedArchiveOptions) (prepare : List PrepareCall)
      (calls : List WriterCall) (w' : ArchiveWriter),
      let w := ArchiveWriter.new output prepared
      let names := writerNames outside prepare calls w
      ArchiveWriter.finish outside (writerAfter outside prepare calls w) = (.ok (), w') →
      ∃ entries folders, WroteHeader outside (buildHeader entries folders) w' ∧
        ((buildHeader entries folders).length < 2 ^ 63 →
          (ListsNames folders (buildHeader entries folders) names ↔
            ∀ name ∈ names, '\x00' ∉ name.toList))) ∧
    (∀ (options : ArchiveOptions) (calls : List BuilderCall) (builder : ArchiveBuilder)
      (w' : ArchiveWriter), calls.foldlM BuilderCall.run (ArchiveBuilder.new options) = .ok builder →
      builder.build outside = .ok w' →
      ∃ entries folders, WroteHeader outside (buildHeader entries folders) w' ∧
        ((buildHeader entries folders).length < 2 ^ 63 →
          (ListsNames folders (buildHeader entries folders) (builderNames calls) ↔
            ∀ name ∈ builderNames calls, '\x00' ∉ name.toList))) := by
  have hshort {n : ℕ} (h : n < 2 ^ 63) : n < 2 ^ 64 := lt_trans h (by decide)
  refine ⟨?_, ?_⟩
  · intro output prepared prepare calls w' w names hfinish
    obtain ⟨hready, folders, hwrote⟩ := finish_wrote hfinish
    have hnew : Named [] w := rfl
    have hnamed := (@writerAfter_named outside prepare calls w hnew).resolve_left hready
    exact ⟨_, folders, hwrote, fun hlen => listsNames_iff hnamed (hshort hlen)⟩
  · intro options calls builder w' hcalls hbuild
    have hnew : BuilderNamed [] (ArchiveBuilder.new options) := rfl
    have hnamed := builderCalls_named calls hnew hcalls
    obtain ⟨entries, folders, hwrote, hentries⟩ := build_wrote hnamed hbuild
    exact ⟨entries, folders, hwrote, fun hlen => listsNames_iff hentries (hshort hlen)⟩

/-- An outside where nothing fails and nothing is transformed. -/
def plainOutside : Outside where
  fault _ := none
  entropy _ _ := 0
  lzma2 _ _ := ⟨fun _ chunk => chunk, fun _ => []⟩
  lzma _ := ⟨fun _ chunk => chunk, fun _ => []⟩
  lzmaProps _ := 0x5D
  ppmd _ _ := ⟨fun _ chunk => chunk, fun _ => []⟩
  bcjLzma2 _ _ := ⟨fun _ chunk => chunk, fun _ => []⟩
  deriveKey _ _ _ := []
  aes _ _ := ⟨fun _ chunk => chunk, fun _ => []⟩
  compressLzma header := ([0x5D, 0, 0, 0, 1], header)
  crc32 _ := 0

def plainPrepared : PreparedArchiveOptions :=
  { codec := .Copy, dictSize := 0x1000000, encryption := none, solid := .Solid, headerMode := .Plain,
    bufferSize := 65536, bufferSize_pos := by decide }

def plainOptions : ArchiveOptions :=
  { solid := .Solid, prepared := .ok plainPrepared, solid_eq := fun _ h => by cases h; rfl }

theorem eq_ok_of_isOk {ε α : Type} {x : Except ε α} (h : x.isOk) : ∃ a, x = .ok a := by
  cases x with
  | error e => cases h
  | ok a => exact ⟨a, rfl⟩

theorem exists_of_isOk {m : WriterM Unit} {w : ArchiveWriter} (h : (m w).1.isOk) :
    ∃ w', m w = (.ok (), w') := by
  rcases hm : m w with ⟨_ | _, w'⟩
  · rw [hm] at h
    cases h
  · exact ⟨w', rfl⟩

def Grows (w w' : ArchiveWriter) : Prop := w.output.content.length ≤ w'.output.content.length

instance : Outward Grows where
  refl _ := le_rfl
  trans _ _ _ := le_trans
  clock _ _ := le_rfl
  write w bytes := by
    simp only [Grows, Sink.write, List.length_append, List.length_take, List.length_replicate, List.length_drop]
    omega

theorem seek_grows (position : ℕ) : Moves Grows (seek outside position) :=
  external_moves.bind fun _ => Moves.modify fun _ => le_rfl

theorem writeAll_length {bytes : List UInt8} {w w' : ArchiveWriter}
    (h : writeAll plainOutside bytes w = (.ok (), w')) : bytes.length ≤ w'.output.content.length := by
  unfold writeAll at h
  split at h
  · next hempty => simp [List.isEmpty_iff.mp hempty]
  · cases h
    simp only [Sink.write, List.length_append]
    omega

theorem encodeHeaderStream_packed {header : List UInt8} {prepared : PreparedArchiveOptions}
    {encoded : Write.EncodedHeader} {w w' : ArchiveWriter}
    (h : encodeHeaderStream plainOutside header prepared w = (.ok encoded, w')) :
    encoded.packed = header := by
  obtain ⟨_, w₁, -, h⟩ := bind_eq_ok.mp h
  dsimp only at h
  cases hencryption : prepared.encryption.filter PreparedEncryption.encryptHeader with
  | none =>
    rw [hencryption] at h
    cases h
    rfl
  | some encryption =>
    rw [hencryption] at h
    obtain ⟨⟨key, iv, props⟩, w₂, -, h⟩ := bind_eq_ok.mp h
    obtain ⟨_, w₃, -, h⟩ := bind_eq_ok.mp h
    cases h
    exact (List.append_nil _).trans (List.flatten_singleton)

/-- The header is written behind what is placed, or it was written there. -/
theorem placeHeader_length {header next : List UInt8} {size offset : UInt64} {numEntries : ℕ}
    {prepared : PreparedArchiveOptions} {w w' : ArchiveWriter}
    (h : placeHeader plainOutside header size numEntries prepared w = (.ok (next, offset), w')) :
    next = header ∨ header.length ≤ w'.output.content.length := by
  have hmode : placeHeader plainOutside header size numEntries prepared = (do
        let encoded ← encodeHeaderStream plainOutside header prepared
        seek plainOutside (32 + size.toNat)
        writeAll plainOutside encoded.packed
        pure (buildEncodedHeaderDescriptor size (UInt64.ofNat encoded.packed.length) encoded.coderInfo
          encoded.unpackSizes, size + UInt64.ofNat encoded.packed.length)) ∨
      placeHeader plainOutside header size numEntries prepared = pure (header, size) := by
    unfold placeHeader
    exact ite_eq_or_eq _ _ _
  rcases hmode with hmode | hmode
  · rw [hmode] at h
    obtain ⟨encoded, w₁, hencode, h⟩ := bind_eq_ok.mp h
    obtain ⟨_, w₂, -, h⟩ := bind_eq_ok.mp h
    obtain ⟨_, w₃, hwrite, h⟩ := bind_eq_ok.mp h
    cases h
    rw [← encodeHeaderStream_packed hencode]
    exact .inr (writeAll_length hwrite)
  · rw [hmode] at h
    cases h
    exact .inl rfl

/-- When nothing is transformed, a header that was written is in the output, encoded or not. -/
theorem length_le_of_wrote {header : List UInt8} {w' : ArchiveWriter} (h : WroteHeader plainOutside header w') :
    header.length ≤ w'.output.content.length := by
  obtain ⟨size, numEntries, prepared, w, h⟩ := h
  obtain ⟨⟨next, offset⟩, w₁, hplace, h⟩ := bind_eq_ok.mp h
  obtain ⟨_, w₂, hseek, h⟩ := bind_eq_ok.mp h
  obtain ⟨_, w₃, hwrite, h⟩ := bind_eq_ok.mp h
  have hend : Grows w₃ w' := by
    have hrest : Moves Grows (do
        seek plainOutside 0
        writeAll plainOutside (signatureBytes plainOutside offset next)
        external plainOutside
        external plainOutside) :=
      (seek_grows 0).bind fun _ => (writeAll_moves _).bind fun _ => external_moves.bind fun _ => external_moves
    exact hrest.ok h
  rcases placeHeader_length hplace with rfl | hplaced
  · exact (writeAll_length hwrite).trans hend
  · have hseek : Grows w₁ w₂ := (seek_grows _).ok hseek
    have hwrite : Grows w₂ w₃ := (writeAll_moves next).ok hwrite
    exact hplaced.trans (hseek.trans (hwrite.trans hend))

/-- One directory through the writer, one through the builder. -/
theorem names_listed_iff_directory :
    (∃ entries folders w', WroteHeader plainOutside (buildHeader entries folders) w' ∧
      (ListsNames folders (buildHeader entries folders) ["d"] ↔ ∀ name ∈ ["d"], '\x00' ∉ name.toList)) ∧
    ∃ entries folders w', WroteHeader plainOutside (buildHeader entries folders) w' ∧
      (ListsNames folders (buildHeader entries folders) ["d"] ↔ ∀ name ∈ ["d"], '\x00' ∉ name.toList) := by
  refine ⟨?_, ?_⟩
  · have hok : (ArchiveWriter.finish plainOutside (writerAfter plainOutside []
        [.appendDirectory "d" EntryMeta.default] (ArchiveWriter.new ⟨[], 0⟩ plainPrepared))).1.isOk := by
      decide +kernel
    have hshort : (ArchiveWriter.finish plainOutside (writerAfter plainOutside []
        [.appendDirectory "d" EntryMeta.default] (ArchiveWriter.new ⟨[], 0⟩ plainPrepared))).2.output.content.length
        < 2 ^ 63 := by
      decide +kernel
    obtain ⟨_, hrun⟩ := eq_ok_of_isOk hok
    obtain ⟨entries, folders, hwrote, hlists⟩ := (names_listed_iff plainOutside).1 ⟨[], 0⟩ plainPrepared []
      [.appendDirectory "d" EntryMeta.default] _ (Prod.ext hrun rfl)
    exact ⟨entries, folders, _, hwrote, hlists ((length_le_of_wrote hwrote).trans_lt hshort)⟩
  · have hrun : (((ArchiveBuilder.new plainOptions).addDirectory "d" EntryMeta.default).build
        plainOutside).map (fun w => decide (w.output.content.length < 2 ^ 63)) = .ok true := by decide +kernel
    rcases hbuild : ((ArchiveBuilder.new plainOptions).addDirectory "d" EntryMeta.default).build
        plainOutside with e | w'
    · rw [hbuild] at hrun
      cases hrun
    · rw [hbuild] at hrun
      have hshort : w'.output.content.length < 2 ^ 63 := of_decide_eq_true (Except.ok.inj hrun)
      obtain ⟨entries, folders, hwrote, hlists⟩ := (names_listed_iff plainOutside).2 plainOptions
        [.addDirectory "d" EntryMeta.default] _ w' rfl hbuild
      exact ⟨entries, folders, w', hwrote, hlists ((length_le_of_wrote hwrote).trans_lt hshort)⟩

/-- A directory whose name holds U+0000 between two letters. -/
def nulDirectory : WriteEntry :=
  { name := "a\x00b", rawName := none, kind := .Directory, metadata := EntryMeta.default,
    stream := .Empty, folderId := 0 }

/-- The archive is built, but its reader rejects the names of the header in it. -/
theorem nul_name_not_listed :
    ∃ w', ((ArchiveBuilder.new plainOptions).addDirectory "a\x00b" EntryMeta.default).build
        plainOutside = .ok w' ∧
      WroteHeader plainOutside (buildHeader [nulDirectory] []) w' ∧
      FilesInfo.parse ⟨0, buildHeader [nulDirectory] []⟩ ⟨1, (buildHeader [nulDirectory] []).drop 1⟩ =
        .error (.error .verify) ∧
      ¬ListsNames [] (buildHeader [nulDirectory] []) ["a\x00b"] := by
  have hparse : FilesInfo.parse ⟨0, buildHeader [nulDirectory] []⟩
      ⟨1, (buildHeader [nulDirectory] []).drop 1⟩ = .error (.error .verify) := by decide +kernel
  have hbuild : ((ArchiveBuilder.new plainOptions).addDirectory "a\x00b" EntryMeta.default).build
      plainOutside = .ok (writeNextHeader plainOutside (buildHeader [nulDirectory] []) 0 1 plainPrepared
        { state := .Failed, entries := [nulDirectory], prepared := plainPrepared, output := ⟨[], 0⟩,
          clock := 5 }).2 := by decide +kernel
  have hwrite : (writeNextHeader plainOutside (buildHeader [nulDirectory] []) 0 1 plainPrepared
      { state := .Failed, entries := [nulDirectory], prepared := plainPrepared, output := ⟨[], 0⟩,
        clock := 5 }).1 = .ok () := by decide +kernel
  refine ⟨_, hbuild, ⟨0, 1, plainPrepared, _, Prod.ext hwrite rfl⟩, hparse, ?_⟩
  rintro ⟨files, rest, hlisted, _⟩
  cases hparse.symm.trans hlisted

end R7z
