import R7z.CoderLists
import R7z.PlannedFolders

/-! The plan of a builder against the writer that follows it: the number planned for an entry is that of
the folder its data goes to, and a folder is opened with the size of the data that it gets. -/

namespace R7z

open Wire Effect Effect.Machine Write

namespace Write

/-! The plan -/

def WriteEntry.data (entry : WriteEntry) : List UInt8 := entry.stream.bufferedData.getD []

def WriteEntry.goesTo (id : WriteFolderId) (entry : WriteEntry) : Bool :=
  entry.stream.hasStream && decide (entry.folderId = id)

def plannedIndices (entries : List WriteEntry) (id : WriteFolderId) : List WriteEntryIndex :=
  entries.findIdxs (WriteEntry.goesTo id)

def plannedData (entries : List WriteEntry) (id : WriteFolderId) : List UInt8 :=
  (entries.filter (WriteEntry.goesTo id)).flatMap WriteEntry.data

section
variable {entries before after : List WriteEntry} {entry : WriteEntry} {id : WriteFolderId}

theorem goesTo_of_ne (h : entry.folderId ≠ id) : entry.goesTo id = false := by
  rw [WriteEntry.goesTo, decide_eq_false h, Bool.and_false]

theorem plannedIndices_concat (entries : List WriteEntry) (entry : WriteEntry) (id : WriteFolderId) :
    plannedIndices (entries ++ [entry]) id =
      plannedIndices entries id ++ if entry.goesTo id then [entries.length] else [] := by
  rw [plannedIndices, List.findIdxs_append, List.findIdxs_singleton, Nat.zero_add]
  rfl

theorem plannedData_concat (entries : List WriteEntry) (entry : WriteEntry) (id : WriteFolderId) :
    plannedData (entries ++ [entry]) id =
      plannedData entries id ++ if entry.goesTo id then entry.data else [] := by
  rw [plannedData, List.filter_append, List.flatMap_append, List.filter_singleton]
  cases entry.goesTo id with
  | false => rfl
  | true => exact congrArg (plannedData entries id ++ ·) (List.flatMap_singleton _ _)

theorem plannedIndices_append (h : ∀ entry ∈ after, entry.folderId ≠ id) :
    plannedIndices (before ++ after) id = plannedIndices before id := by
  have hnone : ∀ s, after.findIdxs (WriteEntry.goesTo id) s = [] := fun s =>
    List.findIdxs_eq_nil_iff.mpr fun entry hentry => goesTo_of_ne (h entry hentry)
  rw [plannedIndices, List.findIdxs_append, hnone, List.append_nil]
  rfl

theorem plannedData_append (h : ∀ entry ∈ after, entry.folderId ≠ id) :
    plannedData (before ++ after) id = plannedData before id := by
  have hnone : after.filter (WriteEntry.goesTo id) = [] :=
    List.filter_eq_nil_iff.mpr fun entry hentry => by rw [goesTo_of_ne (h entry hentry)]; simp
  rw [plannedData, List.filter_append, hnone, List.append_nil]
  rfl

theorem plannedIndices_eq_nil (h : ∀ entry ∈ entries, entry.folderId ≠ id) :
    plannedIndices entries id = [] := @plannedIndices_append [] entries id h

theorem plannedData_eq_nil (h : ∀ entry ∈ entries, entry.folderId ≠ id) :
    plannedData entries id = [] := @plannedData_append [] entries id h

theorem mem_plannedIndices {i : WriteEntryIndex} (hentry : entries[i]? = some entry)
    (hstream : entry.stream.hasStream) : i ∈ plannedIndices entries id ↔ entry.folderId = id := by
  obtain ⟨hi, rfl⟩ := List.getElem?_eq_some_iff.mp hentry
  rw [plannedIndices, List.mem_findIdxs_iff_pos_getElem hi, WriteEntry.goesTo, hstream, Bool.true_and,
    decide_eq_true_iff]

def InOrder (id : WriteFolderId) (entries : List WriteEntry) : Prop :=
  List.IsChain (fun a b => b = a ∨ b = a + 1) (id :: entries.map WriteEntry.folderId)

theorem inOrder_cons : InOrder id (entry :: entries) ↔
    (entry.folderId = id ∨ entry.folderId = id + 1) ∧ InOrder entry.folderId entries :=
  List.isChain_cons_cons

theorem InOrder.le (h : InOrder id entries) : ∀ entry ∈ entries, id ≤ entry.folderId := by
  induction entries generalizing id with
  | nil => simp
  | cons first entries ih =>
    obtain ⟨hfirst, hrest⟩ := inOrder_cons.mp h
    have hle : id ≤ first.folderId :=
      hfirst.elim ge_of_eq fun hnext => hnext ▸ Nat.le_succ id
    intro entry hentry
    rcases List.mem_cons.mp hentry with rfl | hentry
    · exact hle
    · exact hle.trans (ih hrest entry hentry)

theorem InOrder.ne (h : InOrder id entries) (hnext : ∀ entry ∈ entries.head?, entry.folderId ≠ id) :
    ∀ entry ∈ entries, entry.folderId ≠ id := by
  cases entries with
  | nil => simp
  | cons first entries =>
    have hfirst := hnext first rfl
    obtain ⟨hstep, hrest⟩ := inOrder_cons.mp h
    intro entry hentry
    rcases List.mem_cons.mp hentry with rfl | hentry
    · exact hfirst
    · have hlt : id < first.folderId := (hstep.resolve_left hfirst).symm ▸ Nat.lt_succ_self id
      exact Nat.ne_of_gt (hlt.trans_le (hrest.le entry hentry))

variable {solid : SolidMode} {folderId folderId' : WriteFolderId} {progress progress' : FolderProgress}

theorem wouldExceed_files {size : UInt64} (h : progress.wouldExceed solid size = .ok true) :
    progress.files > 0 := by
  cases solid with
  | Solid => cases h
  | NonSolid => exact of_decide_eq_true (Except.ok.inj h)
  | Limit maxFiles maxBytes =>
    obtain ⟨_, _, h⟩ := except_bind_eq_ok.mp h
    obtain ⟨_, _, h⟩ := except_bind_eq_ok.mp h
    exact of_decide_eq_true (Bool.and_eq_true_iff.mp (Except.ok.inj h)).1

theorem nextFolderIf_number {bump : Bool} (hbump : bump = true → progress.files > 0)
    (h : nextFolderIf bump folderId progress = .ok (folderId', progress')) :
    folderId' = folderId ∨ folderId' = folderId + 1 ∧ progress.files > 0 := by
  cases bump with
  | false =>
    cases h
    exact .inl rfl
  | true =>
    obtain ⟨next, hnext, h⟩ := except_bind_eq_ok.mp h
    cases h
    unfold WriteFolderId.next at hnext
    split at hnext
    · cases hnext
      exact .inr ⟨rfl, hbump rfl⟩
    · cases hnext

/-- A new folder is planned only where there are files in the one in use. -/
theorem planFolder_number (h : planFolder solid folderId progress entry = .ok (folderId', progress')) :
    folderId' = folderId ∨ folderId' = folderId + 1 ∧ progress.files > 0 := by
  unfold planFolder at h
  split at h
  · refine nextFolderIf_number (fun hbump => ?_) h
    exact of_decide_eq_true (Bool.and_eq_true_iff.mp hbump).2
  · obtain ⟨size, _, h⟩ := except_bind_eq_ok.mp h
    obtain ⟨exceeds, hexceeds, h⟩ := except_bind_eq_ok.mp h
    obtain ⟨⟨folderId₁, progress₁⟩, hnext, h⟩ := except_bind_eq_ok.mp h
    obtain ⟨progress₂, _, h⟩ := except_bind_eq_ok.mp h
    cases h
    exact nextFolderIf_number (fun hbump => wouldExceed_files (hbump ▸ hexceeds)) hnext

theorem planFolders_inOrder {planned : List WriteEntry}
    (h : planFolders solid folderId progress entries = .ok planned) : InOrder folderId planned := by
  induction entries generalizing folderId progress planned with
  | nil =>
    cases h
    exact List.isChain_singleton _
  | cons first entries ih =>
    obtain ⟨⟨folderId', progress'⟩, hfirst, h⟩ := except_bind_eq_ok.mp h
    obtain ⟨rest, hrest, h⟩ := except_bind_eq_ok.mp h
    cases h
    exact inOrder_cons.mpr ⟨(planFolder_number hfirst).imp_right And.left, ih hrest⟩

/-! The sizes -/

theorem bufferedSize_eq_ok {size : UInt64} (h : bufferedSize entry = .ok size) :
    size = UInt64.ofNat entry.data.length := by
  unfold bufferedSize at h
  unfold WriteEntry.data
  cases hdata : entry.stream.bufferedData with
  | none =>
    rw [hdata] at h
    cases h
  | some data =>
    rw [hdata] at h
    cases h
    rfl

theorem folderSizes_concat {sizes : WriteFolderId → UInt64}
    (h : folderSizes (entries ++ [entry]) = .ok sizes) :
    ∃ before, folderSizes entries = .ok before ∧
      (entry.stream.hasStream = false ∧ sizes = before ∨
        entry.stream.hasStream = true ∧ ∃ size,
          checkedAddU64 (before entry.folderId) (UInt64.ofNat entry.data.length) = .ok size ∧
            sizes = Function.update before entry.folderId size) := by
  rw [folderSizes, List.foldlM_append] at h
  obtain ⟨before, hbefore, h⟩ := except_bind_eq_ok.mp h
  obtain ⟨after, hafter, h⟩ := except_bind_eq_ok.mp h
  cases h
  refine ⟨before, hbefore, ?_⟩
  dsimp only at hafter
  split at hafter
  · next hstream =>
    obtain ⟨size, hbuffered, hafter⟩ := except_bind_eq_ok.mp hafter
    obtain ⟨folderSize, hadd, hafter⟩ := except_bind_eq_ok.mp hafter
    cases hafter
    obtain rfl := bufferedSize_eq_ok hbuffered
    exact .inr ⟨hstream, folderSize, hadd, rfl⟩
  · next hempty =>
    cases hafter
    exact .inl ⟨Bool.eq_false_iff.mpr hempty, rfl⟩

theorem folderSizes_spec {sizes : WriteFolderId → UInt64} (h : folderSizes entries = .ok sizes)
    (id : WriteFolderId) : sizes id = UInt64.ofNat (plannedData entries id).length ∧
      ((∀ entry ∈ entries, entry.data.length < usizeLimit) →
        (sizes id).toNat = (plannedData entries id).length) := by
  induction entries using List.reverseRecOn generalizing sizes with
  | nil =>
    cases h
    exact ⟨rfl, fun _ => rfl⟩
  | append_singleton entries entry ih =>
    obtain ⟨before, hbefore, hentry⟩ := folderSizes_concat h
    obtain ⟨hsize, hexact⟩ := ih hbefore
    have hfits (hall : ∀ e ∈ entries ++ [entry], e.data.length < usizeLimit) :
        (before id).toNat = (plannedData entries id).length :=
      hexact fun e he => hall e (List.mem_append_left _ he)
    rw [plannedData_concat, WriteEntry.goesTo]
    rcases hentry with ⟨hempty, rfl⟩ | ⟨hstream, size, hadd, rfl⟩
    · rw [hempty, Bool.false_and, if_neg Bool.false_ne_true, List.append_nil]
      exact ⟨hsize, hfits⟩
    rw [hstream, Bool.true_and]
    by_cases hid : entry.folderId = id
    · subst hid
      rw [Function.update_self, if_pos (decide_eq_true rfl), List.length_append]
      refine ⟨?_, fun hall => ?_⟩
      · rw [checkedAdd_eq_ok hadd, hsize, UInt64.ofNat_add]
      · have hlt : entry.data.length < usizeLimit :=
          hall entry (List.mem_append_right _ List.mem_cons_self)
        rw [FolderProgress.checkedAddU64_toNat hadd, hfits hall,
          UInt64.toNat_ofNat_of_lt' hlt]
    · rw [Function.update_of_ne (Ne.symm hid), if_neg (by simpa using hid), List.append_nil]
      exact ⟨hsize, hfits⟩

end

/-! The folder in use -/

section
variable (outside : Outside) (prepared : PreparedArchiveOptions)

/-- A folder that was opened for so many bytes, and has been given the data of these entries. -/
structure StreamingFolder.Gathers (size : UInt64) (indices : List WriteEntryIndex) (data : List UInt8)
    (folder : StreamingFolder) : Prop where
  filled : ∃ chunks, folder.Filled outside prepared (some size) chunks ∧ chunks.flatten = data
  indices : folder.files.map FolderFile.entryIndex = indices
  counted : folder.unpackSize = UInt64.ofNat data.length

/-- The folder in use gathers this, behind the ones that are complete; one that is not open yet has got
nothing. -/
def WriterState.Gathers (completed : List CompletedFolder) (size : UInt64)
    (indices : List WriteEntryIndex) (data : List UInt8) : WriterState → Prop
  | Ready completed' => completed' = completed ∧ indices = [] ∧ data = []
  | Active folder completed' _ => completed' = completed ∧ folder.Gathers outside prepared size indices data
  | Failed => False

/-- The writer while data goes into this folder, which is not recorded before its end. -/
def Fills (folder : StreamingFolder) (completed : List CompletedFolder) (progress : FolderProgress)
    (size : UInt64) (data : List UInt8) (w : ArchiveWriter) : Prop :=
  w.prepared = prepared ∧ ∃ folder', w.state = .Active folder' completed progress ∧
    folder'.files = folder.files ∧ folder'.unpackSize = folder.unpackSize ∧
    ∃ chunks, folder'.Filled outside prepared (some size) chunks ∧ chunks.flatten = data

end

section
variable {outside : Outside} {prepared : PreparedArchiveOptions} {folder : StreamingFolder}
  {completed : List CompletedFolder} {progress : FolderProgress} {size : UInt64}
  {indices : List WriteEntryIndex} {data : List UInt8} {w w' : ArchiveWriter}

instance : Inward fun w => (w.prepared, w.state) := ⟨fun _ _ _ => rfl⟩

theorem ensureStreamingFolder_gathers (hprepared : w.prepared = prepared)
    (hw : w.state.Gathers outside prepared completed size indices data)
    (h : ArchiveWriter.ensureStreamingFolder outside (.Preplanned size) w = (.ok (), w')) :
    ∃ folder progress, folder.Gathers outside prepared size indices data ∧
      Fills outside prepared folder completed progress size data w' := by
  have hprepared' : w'.prepared = prepared :=
    (congrArg Prod.snd ((ensureStreamingFolder_keeps _).ok h)).trans hprepared
  obtain ⟨_, _, hget, h⟩ := bind_eq_ok.mp h
  cases hget
  cases hstate : w.state with
  | Failed =>
    rw [hstate] at hw
    exact hw.elim
  | Active folder completed' progress =>
    rw [hstate] at h hw
    cases h
    obtain ⟨rfl, hgathers⟩ := hw
    exact ⟨folder, progress, hgathers, hprepared', folder, hstate, rfl, rfl, hgathers.filled⟩
  | Ready completed' =>
    rw [hstate] at h hw
    obtain ⟨rfl, rfl, rfl⟩ := hw
    obtain ⟨_, _, _, h⟩ := bind_eq_ok.mp h
    obtain ⟨_, _, _, h⟩ := bind_eq_ok.mp h
    obtain ⟨folder, _, hfolder, h⟩ := bind_eq_ok.mp h
    cases h
    obtain ⟨hfiles, hcounted⟩ := encoded_files hfolder
    rw [hprepared] at hfolder
    have hfilled : ∃ chunks, folder.Filled outside prepared (some size) chunks ∧ chunks.flatten = [] :=
      ⟨[], .encoded hfolder, rfl⟩
    refine ⟨folder, _, ⟨hfilled, by rw [hfiles, List.map_nil], hcounted⟩, hprepared', folder, rfl, rfl,
      rfl, hfilled⟩

theorem writeChunk_fills (chunk : List UInt8) :
    Meets (Fills outside prepared folder completed progress size data)
      (ArchiveWriter.writeChunk outside chunk)
      (fun _ => Fills outside prepared folder completed progress size (data ++ chunk))
      fun _ _ => True := by
  apply Meets.of_ok
  rintro w _ w' ⟨hprepared, folder', hstate, hfiles, hcounted, chunks, hfilled, rfl⟩ h
  obtain ⟨_, _, hactive, h⟩ := bind_eq_ok.mp h
  obtain ⟨rfl, hstate'⟩ := activeFolder_ok hactive
  cases hstate.symm.trans hstate'
  obtain ⟨_, _, hget, h⟩ := bind_eq_ok.mp h
  cases hget
  obtain ⟨folder'', w₁, hwrite, h⟩ := bind_eq_ok.mp h
  cases h
  have hprepared₁ : w₁.prepared = w.prepared :=
    congrArg Prod.snd ((@folder_write_keeps outside _ Listing _ _ _ _).ok hwrite)
  obtain ⟨hfiles', hcounted'⟩ := write_files hwrite
  rw [hprepared] at hwrite
  exact ⟨hprepared₁.trans hprepared, folder'', rfl, hfiles'.trans hfiles, hcounted'.trans hcounted,
    _, hfilled.write hwrite, by rw [List.flatten_append, List.flatten_singleton]⟩

theorem fills_kept {α : Type} {m : WriterM α} (h : Keeps (fun w => (w.prepared, w.state)) m) :
    Meets (Fills outside prepared folder completed progress size data) m
      (fun _ => Fills outside prepared folder completed progress size data) fun _ _ => True :=
  (h.meets fun part => part.1 = prepared ∧ ∃ folder', part.2 = .Active folder' completed progress ∧
    folder'.files = folder.files ∧ folder'.unpackSize = folder.unpackSize ∧
    ∃ chunks, folder'.Filled outside prepared (some size) chunks ∧ chunks.flatten = data).mono
    (fun _ h => h) (fun _ _ h => h) fun _ _ _ => trivial

theorem writeChunks_fills (reader : Reader) (chunk seen : List UInt8) (count : UInt64) :
    Meets (Fills outside prepared folder completed progress size data)
      (ArchiveWriter.writeChunks outside reader chunk seen count)
      (fun written w => written.2 = count + UInt64.ofNat (chunk.length + readerSize reader) ∧
        Fills outside prepared folder completed progress size (data ++ (chunk ++ readerData reader)) w)
      fun _ _ => True :=
  writeChunks_meets (I := Fills outside prepared folder completed progress size)
    (fun _ => writeChunk_fills) (fun _ reader => fills_kept (read_keeps reader)) reader data chunk seen count

theorem pushStreaming_gathers {more : List UInt8} {name : String} {metadata : EntryMeta}
    {checksum : UInt32} (hfolder : folder.Gathers outside prepared size indices data)
    (hw : Fills outside prepared folder completed progress size (data ++ more) w)
    (h : ArchiveWriter.pushStreaming name metadata (UInt64.ofNat more.length) checksum w = (.ok (), w')) :
    w'.prepared = prepared ∧ w'.state.Gathers outside prepared completed size
      (indices ++ [w.entries.length]) (data ++ more) := by
  obtain ⟨_, _, hget, h⟩ := bind_eq_ok.mp h
  cases hget
  obtain ⟨_, w₁, hnext, h⟩ := bind_eq_ok.mp h
  obtain ⟨hprepared, folder', hstate, hfiles, hcounted, chunks, hfilled, hchunks⟩ :=
    (fills_kept nextFolderId_keeps).ok hw hnext
  obtain ⟨_, w₂, hpush, h⟩ := bind_eq_ok.mp h
  cases hpush
  obtain ⟨_, _, hactive, h⟩ := bind_eq_ok.mp h
  obtain ⟨rfl, hstate'⟩ := activeFolder_ok hactive
  cases hstate.symm.trans hstate'
  obtain ⟨folder'', _, hrecord, h⟩ := bind_eq_ok.mp h
  obtain ⟨hrecorded, rfl⟩ := Prod.mk.inj hrecord
  cases h
  obtain ⟨hfiles', hcounted'⟩ := recordStream_files hrecorded
  refine ⟨hprepared, rfl, ⟨chunks, hfilled.recordStream hrecorded, hchunks⟩, ?_, ?_⟩
  · rw [hfiles', List.map_append, hfiles, hfolder.indices]
    rfl
  · rw [hcounted', hcounted, hfolder.counted, List.length_append, UInt64.ofNat_add]

theorem appendStreaming_gathers {name : String} {reader : Reader} {metadata : EntryMeta}
    (hprepared : w.prepared = prepared)
    (hw : w.state.Gathers outside prepared completed size indices data)
    (h : ArchiveWriter.appendStreaming outside name reader metadata (.Preplanned size) w = (.ok (), w')) :
    w'.prepared = prepared ∧ w'.state.Gathers outside prepared completed size
      (indices ++ [w.entries.length]) (data ++ readerData reader) := by
  obtain ⟨first, w₁, hread, hrest⟩ := bind_eq_ok.mp h
  obtain ⟨hprepared₁, hstate₁⟩ := Prod.mk.inj
    ((@read_keeps outside _ (fun w => (w.prepared, w.state)) _ reader).ok hread)
  have hlisting₁ : Listing w₁ = Listing w := (@read_keeps outside _ Listing _ reader).ok hread
  rw [← hstate₁] at hw
  rw [readerData_read hread]
  split at hrest
  · next hempty =>
    obtain ⟨_, w₂, hensure, hpush⟩ := bind_eq_ok.mp hrest
    obtain ⟨folder, progress, hfolder, hfills⟩ :=
      ensureStreamingFolder_gathers (hprepared₁.trans hprepared) hw hensure
    have hlisting₂ : Listing w₂ = Listing w₁ := (ensureStreamingFolder_keeps _).ok hensure
    have hentries : w₂.entries = w.entries := congrArg Prod.fst (hlisting₂.trans hlisting₁)
    rw [if_pos hempty, ← hentries]
    rw [← List.append_nil data] at hfills
    exact pushStreaming_gathers hfolder hfills hpush
  · next hdata =>
    obtain ⟨_, w₂, hensure, hrest⟩ := bind_eq_ok.mp hrest
    obtain ⟨⟨seen, count⟩, w₃, hwrite, hrest⟩ := bind_eq_ok.mp hrest
    obtain ⟨_, w₄, hpush, hrest⟩ := bind_eq_ok.mp hrest
    cases hrest
    obtain ⟨folder, progress, hfolder, hfills⟩ :=
      ensureStreamingFolder_gathers (hprepared₁.trans hprepared) hw hensure
    obtain ⟨hcount, hfills⟩ := (writeChunks_fills _ _ _ _).ok hfills hwrite
    have hlisting₂ : Listing w₂ = Listing w₁ := (ensureStreamingFolder_keeps _).ok hensure
    have hlisting₃ : Listing w₃ = Listing w₂ := (writeChunks_keeps _ _ _ _).ok hwrite
    have hentries : w₃.entries = w.entries :=
      congrArg Prod.fst (hlisting₃.trans (hlisting₂.trans hlisting₁))
    rw [if_neg hdata, ← hentries]
    have htotal : count = UInt64.ofNat (first ++ readerData reader.tail).length := by
      rw [List.length_append, readerData_length]
      exact hcount.trans (UInt64.zero_add _)
    rw [htotal] at hpush
    exact pushStreaming_gathers hfolder hfills hpush

theorem nextFolderId_gathers (hw : w.state.Gathers outside prepared completed size indices data) :
    ArchiveWriter.nextFolderId w = (.ok completed.length, w) := by
  rw [ArchiveWriter.nextFolderId, bind_of_ok (rfl : Machine.get w = (.ok w, w))]
  cases hstate : w.state with
  | Failed =>
    rw [hstate] at hw
    exact hw.elim
  | Ready | Active =>
    rw [hstate] at hw
    rw [← hw.1]
    rfl

theorem sealStreamingFolder_gathers
    (hw : w.state.Gathers outside prepared completed size indices data)
    (h : ArchiveWriter.sealStreamingFolder outside w = (.ok (), w')) :
    indices = [] ∧ w'.state = .Ready completed ∨
      ∃ folder, folder.fileIndices = indices ∧ w'.state = .Ready (completed ++ [folder]) := by
  obtain ⟨_, _, hget, h⟩ := bind_eq_ok.mp h
  cases hget
  obtain ⟨_, _, _, h⟩ := bind_eq_ok.mp h
  obtain ⟨_, _, _, h⟩ := bind_eq_ok.mp h
  obtain ⟨after, _, hcompleted, h⟩ := bind_eq_ok.mp h
  obtain ⟨_, _, _, h⟩ := bind_eq_ok.mp h
  cases h
  cases hstate : w.state with
  | Failed =>
    rw [hstate] at hw
    exact hw.elim
  | Ready completed' =>
    rw [hstate] at hcompleted hw
    obtain ⟨rfl, rfl, _⟩ := hw
    cases hcompleted
    exact .inl ⟨rfl, rfl⟩
  | Active folder completed' progress =>
    rw [hstate] at hcompleted hw
    obtain ⟨rfl, hgathers⟩ := hw
    obtain ⟨last, _, hlast, hcompleted⟩ := bind_eq_ok.mp hcompleted
    cases hcompleted
    exact .inr ⟨last, (complete_files hlast).1.trans hgathers.indices, rfl⟩

end

/-! The writer that follows a plan -/

/-- The writer after these entries: the folders before the one in use are complete, each with the entries
planned for it, and the one in use gathers the data planned for it so far. -/
structure Laid (outside : Outside) (prepared : PreparedArchiveOptions) (sizes : WriteFolderId → UInt64)
    (before : List WriteEntry) (id : WriteFolderId) (w : ArchiveWriter) : Prop where
  options : w.prepared = prepared
  named : Named (before.map WriteEntry.name) w
  ids : ∀ entry ∈ before, entry.folderId ≤ id
  folders : ∃ completed : List CompletedFolder,
    completed.map CompletedFolder.fileIndices = (List.range id).map (plannedIndices before) ∧
      w.state.Gathers outside prepared completed (sizes id) (plannedIndices before id) (plannedData before id)

section
variable {outside : Outside} {prepared : PreparedArchiveOptions} {sizes : WriteFolderId → UInt64}
  {before after : List WriteEntry} {entry : WriteEntry} {id id' : WriteFolderId} {w w' : ArchiveWriter}

theorem laid_new (sizes : WriteFolderId → UInt64) (output : Sink) :
    Laid outside prepared sizes [] 0 (ArchiveWriter.new output prepared) :=
  ⟨rfl, rfl, by simp, [], rfl, rfl, rfl, rfl⟩

theorem Laid.length (h : Laid outside prepared sizes before id w) : w.entries.length = before.length := by
  have hlength := congrArg List.length h.named
  simpa using hlength

theorem Laid.ne (h : Laid outside prepared sizes before id w) :
    ∀ entry ∈ before, entry.folderId ≠ id + 1 := fun entry hentry =>
  Nat.ne_of_lt (Nat.lt_succ_of_le (h.ids entry hentry))

theorem length_of_indices {completed : List CompletedFolder} {f : ℕ → List WriteEntryIndex}
    (h : completed.map CompletedFolder.fileIndices = (List.range id).map f) : completed.length = id := by
  simpa using congrArg List.length h

theorem advanceTo_laid (hstep : id' = id ∨ id' = id + 1) :
    Meets (Laid outside prepared sizes before id) (advanceTo outside id')
      (fun _ => Laid outside prepared sizes before id') fun _ _ => True := by
  apply Meets.of_ok
  intro w _ w' hw h
  obtain ⟨completed, hcompleted, hgathers⟩ := hw.folders
  have hlength : completed.length = id := length_of_indices hcompleted
  rw [advanceTo, bind_of_ok (nextFolderId_gathers hgathers), hlength] at h
  rcases hstep with rfl | rfl
  · rw [if_neg (Nat.lt_irrefl _), if_pos rfl] at h
    cases h
    exact hw
  rw [if_neg (Nat.not_lt.mpr (Nat.le_succ id)), if_neg (Nat.succ_ne_self id)] at h
  obtain ⟨_, w₁, hseal, h⟩ := bind_eq_ok.mp h
  have hlisting : Listing w₁ = Listing w := sealStreamingFolder_keeps.ok hseal
  rcases sealStreamingFolder_gathers hgathers hseal with ⟨_, hready⟩ | ⟨folder, hindices, hready⟩
  · -- without an open folder the number stays, which is noticed
    have hgathers₁ : w₁.state.Gathers outside prepared completed 0 [] [] := by
      rw [hready]
      exact ⟨rfl, rfl, rfl⟩
    rw [bind_of_ok (nextFolderId_gathers hgathers₁), hlength, if_pos (Nat.succ_ne_self id)] at h
    cases h
  · have hgathers₁ : w₁.state.Gathers outside prepared (completed ++ [folder]) (sizes (id + 1)) [] [] := by
      rw [hready]
      exact ⟨rfl, rfl, rfl⟩
    rw [bind_of_ok (nextFolderId_gathers hgathers₁), List.length_append, hlength,
      List.length_singleton, if_neg (not_not.mpr rfl)] at h
    cases h
    refine ⟨(congrArg Prod.snd hlisting).trans hw.options,
      (keeps_named_any sealStreamingFolder_keeps _).ok hw.named hseal,
      fun entry hentry => (hw.ids entry hentry).trans (Nat.le_succ id), completed ++ [folder], ?_, ?_⟩
    · rw [List.range_succ, List.map_append, List.map_append, hcompleted, List.map_singleton, hindices]
      rfl
    · rw [plannedIndices_eq_nil hw.ne, plannedData_eq_nil hw.ne]
      exact hgathers₁

theorem Laid.concat (hw : Laid outside prepared sizes before entry.folderId w)
    (hprepared : w'.prepared = prepared)
    (hnamed : Named (before.map WriteEntry.name ++ [entry.name]) w')
    (hstate : ∀ completed, w.state.Gathers outside prepared completed (sizes entry.folderId)
        (plannedIndices before entry.folderId) (plannedData before entry.folderId) →
      w'.state.Gathers outside prepared completed (sizes entry.folderId)
        (plannedIndices (before ++ [entry]) entry.folderId)
        (plannedData (before ++ [entry]) entry.folderId)) :
    Laid outside prepared sizes (before ++ [entry]) entry.folderId w' := by
  obtain ⟨completed, hcompleted, hgathers⟩ := hw.folders
  refine ⟨hprepared, by rw [List.map_append]; exact hnamed, ?_, completed, ?_, hstate completed hgathers⟩
  · intro other hother
    rcases List.mem_append.mp hother with hother | hother
    · exact hw.ids other hother
    · exact le_of_eq (congrArg WriteEntry.folderId (List.mem_singleton.mp hother))
  · rw [hcompleted]
    apply List.map_congr_left
    intro k hk
    refine (plannedIndices_append fun other hother => ?_).symm
    rw [List.mem_singleton.mp hother]
    exact Nat.ne_of_gt (List.mem_range.mp hk)

theorem appendBuilderEntry_laid :
    Meets (Laid outside prepared sizes before entry.folderId)
      (appendBuilderEntry outside entry (sizes entry.folderId))
      (fun _ => Laid outside prepared sizes (before ++ [entry]) entry.folderId) fun _ _ => True := by
  apply Meets.of_ok
  intro w _ w' hw h
  unfold appendBuilderEntry at h
  cases hstream : entry.stream with
  | Streaming =>
    rw [hstream] at h
    cases h
  | Empty =>
    rw [hstream] at h
    have hgoes : entry.goesTo entry.folderId = false := by rw [WriteEntry.goesTo, hstream]; rfl
    have hkept : (w'.prepared, w'.state) = (w.prepared, w.state) :=
      (external_keeps.bind fun _ => nextFolderId_keeps.bind fun _ => Keeps.modify fun _ => rfl :
        Keeps (fun w => (w.prepared, w.state)) (ArchiveWriter.appendEmptyEntry outside _)).ok h
    obtain ⟨hprepared, hstate⟩ := Prod.mk.inj hkept
    refine hw.concat (hprepared.trans hw.options) ((appendEmptyEntry_named _ _).ok hw.named h) ?_
    intro completed hgathers
    rw [plannedIndices_concat, plannedData_concat, hgoes, if_neg Bool.false_ne_true,
      if_neg Bool.false_ne_true, List.append_nil, List.append_nil, hstate]
    exact hgathers
  | Buffered data =>
    rw [hstream] at h
    have hgoes : entry.goesTo entry.folderId = true := by
      rw [WriteEntry.goesTo, hstream, decide_eq_true rfl]
      rfl
    have hdata : entry.data = data := by rw [WriteEntry.data, hstream]; rfl
    obtain ⟨_, _, hget, h⟩ := bind_eq_ok.mp h
    cases hget
    obtain ⟨completed, _, hgathers⟩ := hw.folders
    refine hw.concat (appendStreaming_gathers hw.options hgathers h).1
      ((appendStreaming_named _ _ _ _ _).ok hw.named h) fun completed hgathers => ?_
    have hafter := (appendStreaming_gathers hw.options hgathers h).2
    rw [readerData_slice, hw.length] at hafter
    rw [plannedIndices_concat, plannedData_concat, if_pos hgoes, if_pos hgoes, hdata]
    exact hafter

theorem writePlannedEntry_laid (hstep : entry.folderId = id ∨ entry.folderId = id + 1) :
    Meets (Laid outside prepared sizes before id) (writePlannedEntry outside sizes entry)
      (fun _ => Laid outside prepared sizes (before ++ [entry]) entry.folderId) fun _ _ => True :=
  (advanceTo_laid hstep).bind fun _ => appendBuilderEntry_laid

/-- Wherever writing has come to in a plan, what was planned until there is laid out. -/
theorem writePlannedEntries_laid (hplan : InOrder 0 (before ++ after)) :
    Meets (Laid outside prepared sizes [] 0) (forEach (writePlannedEntry outside sizes) before)
      (fun _ w => ∃ id, InOrder id after ∧ Laid outside prepared sizes before id w) fun _ _ => True := by
  have hloop := Meets.forEach (f := writePlannedEntry outside sizes) (E := fun _ _ => True)
    (I := fun left w => ∃ done id, done ++ left = before ∧ InOrder id (left ++ after) ∧
      Laid outside prepared sizes done id w) before ?_
  · refine hloop.mono (fun w hw => ⟨[], 0, rfl, hplan, hw⟩) ?_ fun _ _ _ => trivial
    rintro _ w ⟨done, id, hdone, horder, hw⟩
    rw [List.append_nil] at hdone
    exact ⟨id, horder, hdone ▸ hw⟩
  intro entry left
  rintro w ⟨done, id, hdone, horder, hw⟩
  obtain ⟨hstep, hrest⟩ := inOrder_cons.mp horder
  refine (writePlannedEntry_laid hstep w hw).mono (fun _ w' hw' => ?_) fun _ _ h => h
  exact ⟨done ++ [entry], entry.folderId, by rw [List.append_assoc]; exact hdone, hrest, hw'⟩

theorem finish_laid (hw : Laid outside prepared sizes before id w)
    (h : ArchiveWriter.finish outside w = (.ok (), w')) :
    ∃ written, (ArchiveWriter.sealed outside w).1 = .ok (w.entries, written) ∧
      WroteHeader outside (buildHeader w.entries written) w' ∧
      written.map CompletedFolder.fileIndices =
        (List.range written.length).map (plannedIndices before) ∧
      ∀ entry ∈ before, entry.stream.hasStream → entry.folderId < written.length := by
  obtain ⟨w₀, w₁, written, hstate, _, _, hseal, hready, hsealed, hwrote⟩ := finish_steps h
  refine ⟨written, hsealed, hwrote, ?_⟩
  obtain ⟨completed, hcompleted, hgathers⟩ := hw.folders
  have hlength : completed.length = id := length_of_indices hcompleted
  rw [← hstate] at hgathers
  rcases sealStreamingFolder_gathers hgathers hseal with ⟨hnone, hafter⟩ | ⟨folder, hindices, hafter⟩
  · cases hready.symm.trans hafter
    rw [hlength]
    refine ⟨hcompleted, fun entry hentry hstream => ?_⟩
    refine Nat.lt_of_le_of_ne (hw.ids entry hentry) fun hid => ?_
    have hgoes := List.findIdxs_eq_nil_iff.mp hnone entry hentry
    rw [WriteEntry.goesTo, hstream, decide_eq_true hid] at hgoes
    cases hgoes
  · cases hready.symm.trans hafter
    rw [List.length_append, hlength, List.length_singleton]
    refine ⟨?_, fun entry hentry _ => Nat.lt_succ_of_le (hw.ids entry hentry)⟩
    rw [List.range_succ, List.map_append, List.map_append, hcompleted, List.map_singleton, hindices]
    rfl

/-- The writer is at this folder, or one new folder before it, and on the way there nothing fails but the
writer. -/
def AtFolder (outside : Outside) (id : WriteFolderId) (w : ArchiveWriter) : Prop :=
  ArchiveWriter.nextFolderId w = (.ok id, w) ∧ advanceTo outside id w = (.ok (), w) ∨
  ∃ next, ArchiveWriter.nextFolderId w = (.ok next, w) ∧ next < id ∧
    advanceTo outside id w = ArchiveWriter.newFolder outside w ∧
    ∀ w', ArchiveWriter.newFolder outside w = (.ok (), w') →
      ArchiveWriter.nextFolderId w' = (.ok id, w')

theorem Planned.atFolder {folders : Folders} {progress : FolderProgress} {rest : List WriteEntry}
    (hw : Planned prepared id progress w folders)
    (hplan : planFolders prepared.solid id progress rest = .ok (entry :: after)) :
    AtFolder outside entry.folderId w := by
  cases rest with
  | nil => cases hplan
  | cons first rest =>
  obtain ⟨⟨folderId, progress'⟩, hfirst, hplan⟩ := except_bind_eq_ok.mp hplan
  obtain ⟨left, _, hplan⟩ := except_bind_eq_ok.mp hplan
  cases hplan
  have hnumber := nextFolderId_stands hw.stands
  rw [hw.number] at hnumber
  rcases planFolder_number hfirst with rfl | ⟨rfl, hfiles⟩
  · left
    refine ⟨hnumber, ?_⟩
    rw [advanceTo, bind_of_ok hnumber, if_neg (Nat.lt_irrefl _), if_pos rfl]
    rfl
  right
  -- there are files in the open folder, so that it can be sealed
  have hopen : folders.completed.complete.length = id + 1 := by
    have htallies := hw.tallies
    cases hcurrent : folders.current with
    | none =>
      rw [hcurrent] at htallies
      have hpos : 0 < progress.files.toNat := UInt64.lt_iff_toNat_lt.mp hfiles
      exact absurd htallies.files (Nat.ne_of_gt hpos)
    | some current =>
      rw [Folders.completed, hcurrent, List.length_append, hw.number]
      rfl
  have hafter : ∀ w', ArchiveWriter.newFolder outside w = (.ok (), w') →
      ArchiveWriter.nextFolderId w' = (.ok (id + 1), w') := by
    intro w' hseal
    have hnext := nextFolderId_stands (sealStreamingFolder_stands.ok hw.stands hseal)
    rwa [hopen] at hnext
  refine ⟨id, hnumber, Nat.lt_succ_self id, ?_, hafter⟩
  rw [advanceTo, bind_of_ok hnumber, if_neg (Nat.not_lt.mpr (Nat.le_succ id)),
    if_neg (Nat.succ_ne_self id)]
  rcases hseal : ArchiveWriter.newFolder outside w with ⟨_ | _, w'⟩
  · exact bind_of_error hseal
  · rw [bind_of_ok hseal, bind_of_ok (hafter w' hseal), if_neg (not_not.mpr rfl)]
    rfl

theorem exists_mem_iff {written : List CompletedFolder} {planned : List WriteEntry}
    (hwritten : written.map CompletedFolder.fileIndices =
      (List.range written.length).map (plannedIndices planned))
    (hlt : ∀ entry ∈ planned, entry.stream.hasStream → entry.folderId < written.length)
    {i j : WriteEntryIndex} {a b : WriteEntry} (hi : planned[i]? = some a) (hj : planned[j]? = some b)
    (ha : a.stream.hasStream) (hb : b.stream.hasStream) :
    (∃ folder ∈ written, i ∈ folder.fileIndices ∧ j ∈ folder.fileIndices) ↔ a.folderId = b.folderId := by
  have hindices : ∀ k (hk : k < written.length), written[k].fileIndices = plannedIndices planned k := by
    intro k hk
    have hget := congrArg (·[k]?) hwritten
    simpa [hk] using hget
  constructor
  · rintro ⟨folder, hfolder, hmem, hmem'⟩
    obtain ⟨k, hk, rfl⟩ := List.getElem_of_mem hfolder
    rw [hindices k hk] at hmem hmem'
    exact ((mem_plannedIndices hi ha).mp hmem).trans ((mem_plannedIndices hj hb).mp hmem').symm
  · intro hsame
    have hk := hlt a (List.mem_of_getElem? hi) ha
    refine ⟨written[a.folderId], List.getElem_mem hk, ?_⟩
    rw [hindices _ hk]
    exact ⟨(mem_plannedIndices hi ha).mpr rfl, (mem_plannedIndices hj hb).mpr hsame.symm⟩

/-- A builder plans what its writer does. Before every entry the writer is at the folder planned for it or
one new folder before it. A folder that the next entry is not for, or that is open at the end, has got the
data planned for it, and was opened with the size of that. Entries with data are in one folder of the
finished archive where they are planned for one folder. -/
theorem builder_plan_followed {builder : ArchiveBuilder} {planned : List WriteEntry}
    (hplan : entriesWithSolidFolders builder.entries builder.options.solid = .ok planned)
    (hsizes : folderSizes planned = .ok sizes) (hprepared : builder.options.prepared = .ok prepared) :
    (∀ before entry after w, planned = before ++ entry :: after →
      forEach (writePlannedEntry outside sizes) before
        (ArchiveWriter.new { content := [], position := 0 } prepared) = (.ok (), w) →
      AtFolder outside entry.folderId w) ∧
    (∀ before after w folder completed progress, planned = before ++ after →
      forEach (writePlannedEntry outside sizes) before
        (ArchiveWriter.new { content := [], position := 0 } prepared) = (.ok (), w) →
      w.state = .Active folder completed progress →
      (∀ entry ∈ after.head?, entry.folderId ≠ completed.length) →
      folder.Gathers outside prepared (sizes completed.length)
          (plannedIndices planned completed.length) (plannedData planned completed.length) ∧
        folder.unpackSize = sizes completed.length ∧
        ((∀ entry ∈ builder.entries, entry.data.length < usizeLimit) →
          (sizes completed.length).toNat = (plannedData planned completed.length).length)) ∧
    ∀ w', builder.build outside = .ok w' →
      ∃ entries written, builder.sealed outside = .ok (entries, written) ∧
        WroteHeader outside (buildHeader entries written) w' ∧
        entries.map WriteEntry.name = planned.map WriteEntry.name ∧
        ∀ i j a b, planned[i]? = some a → planned[j]? = some b →
          a.stream.hasStream → b.stream.hasStream →
          ((∃ folder ∈ written, i ∈ folder.fileIndices ∧ j ∈ folder.fileIndices) ↔
            a.folderId = b.folderId) := by
  have horder : InOrder 0 planned := planFolders_inOrder hplan
  refine ⟨?_, ?_, ?_⟩
  · rintro before entry after w rfl hrun
    rw [← builder.options.solid_eq prepared hprepared] at hplan
    obtain ⟨id, progress, rest, hrest, folders, hw⟩ :=
      (writePlannedEntries_planned sizes hplan).ok ⟨_, planned_new prepared _⟩ hrun
    exact hw.atFolder hrest
  · rintro before after w folder completed progress rfl hrun hstate hnext
    obtain ⟨id, hrest, hw⟩ := (writePlannedEntries_laid horder).ok (laid_new sizes _) hrun
    obtain ⟨completed', hcompleted, hgathers⟩ := hw.folders
    rw [hstate] at hgathers
    obtain ⟨rfl, hgathers⟩ := hgathers
    have hlength : completed.length = id := length_of_indices hcompleted
    rw [hlength] at hnext ⊢
    -- no entry that is left is for this folder
    rw [← plannedIndices_append (hrest.ne hnext), ← plannedData_append (hrest.ne hnext)] at hgathers
    obtain ⟨hsize, hexact⟩ := folderSizes_spec hsizes id
    refine ⟨hgathers, hgathers.counted.trans hsize.symm, fun hfits => hexact fun entry hentry => ?_⟩
    have hdata := planFolders_map (f := WriteEntry.data) (fun _ _ => rfl) hplan
    obtain ⟨given, hgiven, hsame⟩ := List.mem_map.mp (hdata ▸ List.mem_map_of_mem hentry)
    exact hsame ▸ hfits given hgiven
  · intro w' hbuild
    obtain ⟨planned', sizes', prepared', w, hplan', hsizes', hprepared', hrun, hfinish⟩ :=
      build_steps hbuild
    cases hplan.symm.trans hplan'
    cases hsizes.symm.trans hsizes'
    cases hprepared.symm.trans hprepared'
    have hsealed := builder_sealed hplan hsizes hprepared hrun
    rw [← List.append_nil planned] at horder
    obtain ⟨id, _, hw⟩ := (writePlannedEntries_laid horder).ok (laid_new sizes _) hrun
    obtain ⟨written, hgiven, hwrote, hwritten, hlt⟩ := finish_laid hw hfinish
    refine ⟨w.entries, written, hsealed.trans hgiven, hwrote, ?_, fun i j a b hi hj ha hb =>
      exists_mem_iff hwritten hlt hi hj ha hb⟩
    have hnames := congrArg (List.map Prod.snd) hw.named
    rw [List.map_map, List.map_map] at hnames
    exact hnames.trans (List.map_id _)

end

/-- A folder for each file. -/
def oneEach : PreparedArchiveOptions := { plainPrepared with solid := .NonSolid }

def oneEachOptions : ArchiveOptions :=
  { solid := .NonSolid, prepared := .ok oneEach, solid_eq := fun _ h => by cases h; rfl }

def dirBuilder : ArchiveBuilder :=
  (((ArchiveBuilder.new oneEachOptions).addFile "a" [1, 2, 3]).addDirectory "d" EntryMeta.default).addFile
    "b" [4, 5]

/-- The directory is planned for the second folder, which is begun before it. -/
theorem builder_plan_followed_dir :
    ∃ planned sizes w folder completed progress entries written w',
      entriesWithSolidFolders dirBuilder.entries .NonSolid = .ok planned ∧
      planned.map WriteEntry.folderId = [0, 1, 1] ∧ folderSizes planned = .ok sizes ∧
      forEach (writePlannedEntry plainOutside sizes) (planned.take 1)
        (ArchiveWriter.new { content := [], position := 0 } oneEach) = (.ok (), w) ∧
      AtFolder plainOutside 1 w ∧ w.state = .Active folder completed progress ∧
      folder.Gathers plainOutside oneEach (sizes 0) [0] [1, 2, 3] ∧ folder.unpackSize = sizes 0 ∧
      (sizes 0).toNat = 3 ∧ dirBuilder.sealed plainOutside = .ok (entries, written) ∧
      WroteHeader plainOutside (buildHeader entries written) w' ∧
      entries.map WriteEntry.name = ["a", "d", "b"] ∧
      ¬∃ folder ∈ written, 0 ∈ folder.fileIndices ∧ 2 ∈ folder.fileIndices := by
  let a : WriteEntry := ⟨"a", none, .File, EntryMeta.default, .Buffered [1, 2, 3], 0⟩
  let d : WriteEntry := ⟨"d", none, .Directory, EntryMeta.default, .Empty, 1⟩
  let b : WriteEntry := ⟨"b", none, .File, EntryMeta.default, .Buffered [4, 5], 1⟩
  have hplan : entriesWithSolidFolders dirBuilder.entries .NonSolid = .ok [a, d, b] := by decide +kernel
  have hsizes : folderSizes [a, d, b] =
      .ok (Function.update (Function.update (fun _ => 0) 0 3) 1 2) := by rfl
  let run := forEach (writePlannedEntry plainOutside
      (Function.update (Function.update (fun _ => 0) 0 3) 1 2)) [a]
    (ArchiveWriter.new { content := [], position := 0 } oneEach)
  have hrun : run = (.ok (), run.2) := by decide +kernel
  have hactive : (match run.2.state with
      | .Active _ completed _ => completed.isEmpty
      | _ => false) = true := by decide +kernel
  obtain ⟨folder, progress, hstate⟩ : ∃ folder progress, run.2.state = .Active folder [] progress := by
    cases hstate : run.2.state with
    | Active folder completed progress =>
      rw [hstate] at hactive
      exact ⟨folder, progress, by rw [List.isEmpty_iff.mp hactive]⟩
    | Ready | Failed =>
      rw [hstate] at hactive
      cases hactive
  have hok : (dirBuilder.build plainOutside).isOk := by decide +kernel
  obtain ⟨w', hbuild⟩ := eq_ok_of_isOk hok
  obtain ⟨hat, hgathers, hbuilt⟩ := @builder_plan_followed plainOutside oneEach _ dirBuilder _
    hplan hsizes rfl
  obtain ⟨entries, written, hsealed, hwrote, hnames, hshare⟩ := hbuilt w' hbuild
  obtain ⟨hfolder, hcounted, hexact⟩ := hgathers [a] [d, b] run.2 folder [] progress rfl hrun hstate
    (by decide +kernel)
  refine ⟨_, _, run.2, folder, [], progress, entries, written, w', hplan, rfl, hsizes, hrun,
    hat [a] d [b] run.2 rfl hrun, hstate, hfolder, hcounted, ?_, hsealed, hwrote, hnames, ?_⟩
  · exact hexact (by decide +kernel)
  · rw [hshare 0 2 a b rfl rfl rfl rfl]
    exact Nat.zero_ne_one

end Write

end R7z
