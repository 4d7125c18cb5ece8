import R7z.Update.Checks
import R7z.Update.Staging
import R7z.WriterNames

/-! An update that does not fit its source is refused before the output is touched, and one that goes
through copies whole folders. -/

namespace R7z

open Wire Effect Effect.Machine Wire.Parser

namespace Write

section
variable (outside : Outside)

def admitUpdate (source : Archive) (options : Except R7zError PreparedArchiveOptions)
    (entries : List PreservedArchiveEntry) (rawFolders : List RawFolderBlock) :
    WriterM (PreparedArchiveOptions × StagedPreserved) := do
  ofExcept (validateRawFolderUpdate source entries rawFolders)
  let prepared ← ofExcept options
  external outside
  forEach (reserveRetained outside) entries
  let staged ← ofExcept (stagePreservedEntries entries rawFolders prepared.solid)
  pure (prepared, staged)

end

variable {outside : Outside} {source : Archive} {options : Except R7zError PreparedArchiveOptions}
  {entries : List PreservedArchiveEntry} {rawFolders : List RawFolderBlock}

theorem bind_assoc {σ ε α β γ : Type} (m : Machine σ ε α) (f : α → Machine σ ε β)
    (g : β → Machine σ ε γ) : (m >>= f) >>= g = m >>= fun a => f a >>= g := by
  funext s
  rw [Machine.bind_apply, Machine.bind_apply, Machine.bind_apply]
  rcases m s with ⟨e | a, t⟩ <;> rfl

theorem writeArchiveUpdate_eq : writeArchiveUpdate outside source options entries rawFolders =
    admitUpdate outside source options entries rawFolders >>= fun admitted =>
      writeStaged outside admitted.1 rawFolders admitted.2 := by
  unfold writeArchiveUpdate writePreservedArchive admitUpdate
  simp only [bind_assoc]
  rfl

def withOutput (sink : Sink) (w : ArchiveWriter) : ArchiveWriter := { w with output := sink }

theorem external_ignores (sink : Sink) : Ignores (withOutput sink) (external outside) := by
  intro w
  unfold external
  rw [nextFault_bind, nextFault_bind]
  unfold withOutput
  cases outside.fault w.clock <;> rfl

theorem admitUpdate_ignores (sink : Sink) :
    Ignores (withOutput sink) (admitUpdate outside source options entries rawFolders) := by
  refine (Ignores.ofExcept _).bind fun _ => (Ignores.ofExcept _).bind fun prepared => ?_
  refine (external_ignores sink).bind fun _ => ?_
  refine Ignores.bind (Ignores.forEach (fun entry => ?_) entries) fun _ => ?_
  · unfold reserveRetained
    cases entry.stream with
    | Data => exact external_ignores sink
    | None | Path | Raw => exact Ignores.pure ()
  · exact (Ignores.ofExcept _).bind fun _ => Ignores.pure _

theorem honest_of_stages {first : WriteFolderId} {staged : List StagedEntry}
    (h : List.Forall₂ (Stages rawFolders first) entries staged)
    (hentries : ∀ entry ∈ entries, HonestEntry entry) : ∀ row ∈ staged, HonestStaged row := by
  induction h with
  | nil => exact fun _ hrow => absurd hrow List.not_mem_nil
  | @cons entry row entries staged hstages _ ih =>
    obtain ⟨hentry, hrest⟩ := List.forall_mem_cons.mp hentries
    refine List.forall_mem_cons.mpr ⟨?_, ih hrest⟩
    have hstream := hstages.stream
    unfold HonestEntry at hentry
    unfold HonestStaged
    generalize entry.stream = stream at hstream hentry
    generalize row.stream = stream' at hstream
    cases hstream with
    | none | raw | data => trivial
    | path => exact hentry

theorem admit_of_rejection (hout : outside.Honest) (hentries : ∀ entry ∈ entries, HonestEntry entry)
    {w w' : ArchiveWriter} {e : R7zError} (hreject : Rejection e)
    (h : writeArchiveUpdate outside source options entries rawFolders w = (.error e, w')) :
    admitUpdate outside source options entries rawFolders w = (.error e, w') := by
  rw [writeArchiveUpdate_eq, Machine.bind_apply] at h
  rcases hrun : admitUpdate outside source options entries rawFolders w with ⟨e' | ⟨prepared, staged⟩, t⟩
  · rw [hrun] at h
    cases h
    rfl
  · rw [hrun] at h
    obtain ⟨_, _, -, hrun⟩ := Machine.bind_eq_ok.mp hrun
    obtain ⟨prepared', _, -, hrun⟩ := Machine.bind_eq_ok.mp hrun
    obtain ⟨_, _, -, hrun⟩ := Machine.bind_eq_ok.mp hrun
    obtain ⟨_, _, -, hrun⟩ := Machine.bind_eq_ok.mp hrun
    obtain ⟨staged', t', hstaged, hrun⟩ := Machine.bind_eq_ok.mp hrun
    cases hrun
    have hspec := stagePreservedEntries_spec (Prod.mk.inj hstaged).1
    have hharmless := writeStaged_harmless hout prepared rawFolders
      (honest_of_stages hspec.1 hentries)
    exact absurd hreject (hharmless _ _ _ h)

/-! Whole folders -/

/-- The rows that copy a folder: all of its entries in the source, each once and in order, and next to
one another among the rows that own a stream. -/
structure CopiesWhole (source : Archive) (listing : ArchiveListing)
    (entries : List PreservedArchiveEntry) (folder : RawFolderHandle) : Prop where
  belongs : folder.belongsTo source = true
  run : ∃ front copies back, owners entries = front ++ copies ++ back ∧
    (∀ entry ∈ copies, ∃ sourceEntry, entry.stream.rawRow = some (folder, sourceEntry)) ∧
    (∀ entry ∈ front ++ back, ∀ row, entry.stream.rawRow = some row → row.1 ≠ folder) ∧
    copies.filterMap (fun entry => entry.stream.rawRow.map Prod.snd) =
      folderEntries listing folder.index
  increasing : (folderEntries listing folder.index).Pairwise (· < ·)

theorem folderEntries_increasing {header : Header} {physicalSize : Option ℕ} {listing : ArchiveListing}
    (h : header.listing physicalSize = .ok listing) (folder : ℕ) :
    (folderEntries listing folder).Pairwise (· < ·) := by
  have hall : (listing.entries.map ArchiveListingEntry.index).Pairwise (· < ·) := by
    rw [listing_indices h]
    exact List.pairwise_lt_range
  exact hall.sublist (List.filter_sublist.map _)

theorem filterMap_owners {α : Type} (g : RawFolderHandle × ℕ → Option α)
    (entries : List PreservedArchiveEntry) :
    (owners entries).filterMap (fun entry => entry.stream.rawRow.bind g) =
      entries.filterMap fun entry => entry.stream.rawRow.bind g := by
  unfold owners
  rw [List.filterMap_filter]
  refine List.filterMap_congr fun entry _ => ?_
  cases entry.stream <;> rfl

theorem rawEntries_rawRows (entries : List PreservedArchiveEntry) (folder : ℕ) :
    rawEntries (rawRows entries) folder = (owners entries).filterMap fun entry =>
      entry.stream.rawRow.bind fun row => if row.1.index = folder then some row.2 else none := by
  rw [filterMap_owners]
  unfold rawEntries rawRows numbered
  induction entries with
  | nil => rfl
  | cons entry entries ih =>
    rw [List.filterMap_cons, List.filterMap_cons]
    cases hrow : entry.stream.rawRow with
    | none => exact ih
    | some row =>
      dsimp only [Option.bind_some]
      rw [List.map_cons, List.filter_cons]
      by_cases hfolder : row.1.index = folder
      · rw [if_pos hfolder, if_pos (decide_eq_true hfolder), List.map_cons, ih]
      · rw [if_neg hfolder, if_neg (by simpa using hfolder), ih]

theorem split_forall₂ {α β : Type} {R : α → β → Prop} {l : List α} {a b : List β}
    (h : List.Forall₂ R l (a ++ b)) :
    ∃ l₁ l₂, l = l₁ ++ l₂ ∧ List.Forall₂ R l₁ a ∧ List.Forall₂ R l₂ b :=
  ⟨_, _, (List.take_append_drop a.length l).symm, List.forall₂_take_append l a b h,
    List.forall₂_drop_append l a b h⟩

theorem partner_of_mem {α β : Type} {R : α → β → Prop} {l : List α} {m : List β}
    (h : List.Forall₂ R l m) {x : α} (hx : x ∈ l) : ∃ y ∈ m, R x y := by
  induction h with
  | nil => cases hx
  | cons hr _ ih =>
    rcases List.mem_cons.mp hx with rfl | hx
    · exact ⟨_, List.mem_cons_self, hr⟩
    · obtain ⟨y, hy, hr⟩ := ih hx
      exact ⟨y, List.mem_cons_of_mem _ hy, hr⟩

inductive GoesTo (rawFolders : List RawFolderBlock) (entry : PreservedArchiveEntry)
    (target : WriteFolderId) : Prop where
  | new (hnone : entry.stream.rawRow = none) (hlt : maxRawFolder rawFolders < target)
  | raw (folder : RawFolderHandle) (sourceEntry : ℕ) (raw : RawFolderBlock)
    (hrow : entry.stream.rawRow = some (folder, sourceEntry)) (htarget : folder.index = target)
    (hraw : rawById rawFolders target = some raw) (hhandle : raw.handle = folder)

theorem goesTo_of_stages {entry : PreservedArchiveEntry} {row : StagedEntry} {target : WriteFolderId}
    (hstages : Stages rawFolders (maxRawFolder rawFolders + 1) entry row)
    (htarget : row.folderId = some target) : GoesTo rawFolders entry target := by
  have hstream := hstages.stream
  unfold StagedEntry.folderId at htarget
  cases hentry : entry.stream <;> cases hrow : row.stream <;> rw [hentry, hrow] at hstream <;>
    rw [hrow] at htarget <;> cases hstream <;> cases htarget
  case Data.Folder.data.refl hle => exact .new (by rw [hentry]; rfl) hle
  case Path.Folder.path.refl hle => exact .new (by rw [hentry]; rfl) hle
  case Raw.Folder.raw.refl hraw hhandle => exact .raw _ _ _ (by rw [hentry]; rfl) rfl hraw hhandle

theorem copiesWhole {listing : ArchiveListing} {solid : SolidMode} {staged : StagedPreserved}
    (hlisting : source.header.listing (some source.source.bytes.length) = .ok listing)
    (hfits : FitsSource source listing rawFolders entries)
    (hstaged : stagePreservedEntries entries rawFolders solid = .ok staged)
    {entry : PreservedArchiveEntry} (hentry : entry ∈ entries) {folder : RawFolderHandle}
    {sourceEntry : ℕ} (hrow : entry.stream.rawRow = some (folder, sourceEntry)) :
    CopiesWhole source listing entries folder := by
  obtain ⟨hstages, hruns, -⟩ := stagePreservedEntries_spec hstaged
  obtain ⟨size, crc, hstream⟩ : ∃ size crc, entry.stream = .Raw folder sourceEntry size crc := by
    unfold PreservedEntryStream.rawRow at hrow
    split at hrow
    · cases hrow
      exact ⟨_, _, by assumption⟩
    · cases hrow
  have hmatches := hfits.rows entry hentry _ _ _ _ hstream
  obtain ⟨raw, hraw, hhandle⟩ := hmatches.copied
  have hle : folder.index ≤ maxRawFolder rawFolders := hhandle ▸ le_maxRawFolder hraw
  -- the rows of the folder stand together among those that own data
  obtain ⟨pre, n, post, hids, hpre, hpost⟩ := hruns folder.index
  have hgoes : List.Forall₂ (GoesTo rawFolders) (owners entries) (pre ++ List.replicate n folder.index
      ++ post) := by
    rw [← hids]
    exact (owners_folders hstages).imp fun _ _ ⟨_, hrow, htarget⟩ => goesTo_of_stages hrow htarget
  obtain ⟨initial, back, howners, hinitial, hback⟩ := split_forall₂ hgoes
  obtain ⟨front, copies, rfl, hfront, hcopies⟩ := split_forall₂ hinitial
  -- outside the run every row goes to another folder
  have hother : ∀ other ∈ front ++ back, ∀ row, other.stream.rawRow = some row →
      row.1.index ≠ folder.index := by
    intro other hmem row hother
    obtain ⟨target, htarget, hgoes⟩ : ∃ target ∈ pre ++ post, GoesTo rawFolders other target := by
      rcases List.mem_append.mp hmem with hmem | hmem
      · obtain ⟨target, htarget, hgoes⟩ := partner_of_mem hfront hmem
        exact ⟨target, List.mem_append_left _ htarget, hgoes⟩
      · obtain ⟨target, htarget, hgoes⟩ := partner_of_mem hback hmem
        exact ⟨target, List.mem_append_right _ htarget, hgoes⟩
    cases hgoes with
    | new hnone _ =>
      rw [hnone] at hother
      cases hother
    | raw folder' sourceEntry' raw' hrow' htarget' _ _ =>
      rw [hrow'] at hother
      cases hother
      intro hsame
      rw [← htarget', hsame] at htarget
      exact (List.mem_append.mp htarget).elim hpre hpost
  have howner : entry ∈ owners entries := by
    refine List.mem_filter.mpr ⟨hentry, ?_⟩
    rw [hstream]
    rfl
  obtain ⟨block, hblock, hfolder⟩ : ∃ block, rawById rawFolders folder.index = some block ∧
      block.handle = folder := by
    obtain ⟨target, -, hgoes⟩ := partner_of_mem hgoes howner
    cases hgoes with
    | new hnone _ =>
      rw [hnone] at hrow
      cases hrow
    | raw _ _ block hrow' htarget hblock hhandle =>
      rw [hrow'] at hrow
      cases hrow
      exact ⟨block, by rw [htarget]; exact hblock, hhandle⟩
  -- inside it every row copies this folder
  have hcopied : ∀ copied ∈ copies, ∃ sourceEntry, copied.stream.rawRow = some (folder, sourceEntry) := by
    intro copied hmem
    obtain ⟨target, htarget, hgoes⟩ := partner_of_mem hcopies hmem
    rw [List.eq_of_mem_replicate htarget] at hgoes
    cases hgoes with
    | new _ hlt => exact absurd hle (Nat.not_le.mpr hlt)
    | raw folder' sourceEntry' block' hrow' _ hblock' hhandle' =>
      rw [hblock] at hblock'
      cases hblock'
      exact ⟨sourceEntry', by rw [hrow', ← hhandle', hfolder]⟩
  refine ⟨hmatches.belongs, ⟨front, copies, back, howners, hcopied, ?_, ?_⟩,
    folderEntries_increasing hlisting folder.index⟩
  · intro other hmem row hrow hsame
    exact hother other hmem row hrow (congrArg RawFolderHandle.index hsame)
  · have hmem : (folder.index, sourceEntry) ∈ rawRows entries :=
      List.mem_map.mpr ⟨(folder, sourceEntry), List.mem_filterMap.mpr ⟨entry, hentry, hrow⟩, rfl⟩
    rw [← hfits.whole _ hmem, rawEntries_rawRows, howners, List.filterMap_append,
      List.filterMap_append]
    have hnone : ∀ rest : List PreservedArchiveEntry, (∀ other ∈ rest, other ∈ front ++ back) →
        rest.filterMap (fun entry => entry.stream.rawRow.bind fun row =>
          if row.1.index = folder.index then some row.2 else none) = [] := by
      intro rest hrest
      refine List.filterMap_eq_nil_iff.mpr fun other hmem => ?_
      cases hrow : other.stream.rawRow with
      | none => rfl
      | some row => exact if_neg (hother other (hrest other hmem) row hrow)
    rw [hnone front fun _ => List.mem_append_left _, hnone back fun _ => List.mem_append_right _,
      List.nil_append, List.append_nil]
    refine List.filterMap_congr fun copied hmem => ?_
    obtain ⟨sourceEntry', hrow'⟩ := hcopied copied hmem
    rw [hrow']
    exact (if_pos rfl).symm

/-- Before it touches the output an update is held against its source: a refusal leaves every output as
it was, and what is let through copies each folder it refers to as a whole. -/
theorem writeArchiveUpdate_rejects_first (hout : outside.Honest)
    (hentries : ∀ entry ∈ entries, HonestEntry entry) (w : ArchiveWriter) :
    (∀ e w', writeArchiveUpdate outside source options entries rawFolders w = (.error e, w') →
      Rejection e → ∀ sink, writeArchiveUpdate outside source options entries rawFolders
        (withOutput sink w) = (.error e, withOutput sink w')) ∧
    ∀ w', writeArchiveUpdate outside source options entries rawFolders w = (.ok (), w') →
      ∃ listing, source.header.listing (some source.source.bytes.length) = .ok listing ∧
        ∀ entry ∈ entries, ∀ folder sourceEntry,
          entry.stream.rawRow = some (folder, sourceEntry) →
            CopiesWhole source listing entries folder := by
  constructor
  · intro e w' h hreject sink
    have hrun := admit_of_rejection hout hentries hreject h
    rw [writeArchiveUpdate_eq, Machine.bind_apply, admitUpdate_ignores sink w, hrun]
  · intro w' h
    obtain ⟨_, _, hvalidate, h⟩ := Machine.bind_eq_ok.mp h
    obtain ⟨prepared, _, -, h⟩ := Machine.bind_eq_ok.mp h
    obtain ⟨_, _, -, h⟩ := Machine.bind_eq_ok.mp h
    obtain ⟨_, _, -, h⟩ := Machine.bind_eq_ok.mp h
    obtain ⟨staged, _, hstaged, -⟩ := Machine.bind_eq_ok.mp h
    obtain ⟨listing, hlisting, hfits⟩ := validateRawFolderUpdate_iff.mp (Prod.mk.inj hvalidate).1
    exact ⟨listing, hlisting, fun entry hentry folder sourceEntry hrow =>
      copiesWhole hlisting hfits (Prod.mk.inj hstaged).1 hentry hrow⟩

/-- Two files of one byte in one folder, the folder as it is copied, and the rows that copy them. -/
def twoFiles : Archive :=
  { identity := 1
    header :=
      { data := ⟨0, [1, 4, 6, 0, 1, 9, 2, 0, 7, 11, 1, 0, 1, 1, 0, 12, 2, 0, 8, 13, 2, 9, 1, 0, 0, 5, 2,
          17, 9, 0, 97, 0, 0, 0, 98, 0, 0, 0, 0, 0]⟩
        streamsInfoRange := some ⟨2, 25⟩, filesInfoRange := some ⟨25, 39⟩, additionalStreamsRange := none
        externalFolderData := [], numFiles := 2 }
    source := { bytes := [], fails := fun _ _ => none }
    baseOffset := 0 }

def twoFilesBlock : RawFolderBlock :=
  { folderInfo := encodeCoderInfoCopy, packedStreams := [[7, 8]], packSizes := [2]
    coderUnpackSizes := [2], folderCrc := none, handle := ⟨1, 0⟩ }

def copyOf (sourceEntry : ℕ) : PreservedArchiveEntry :=
  { name := "copy", rawName := none, kind := .File, metadata := EntryMeta.default
    stream := .Raw ⟨1, 0⟩ sourceEntry 1 none }

/-- Half of the folder is refused whatever the output holds; both halves are a whole. -/
theorem writeArchiveUpdate_rejects_first_halves :
    (∀ sink, writeArchiveUpdate plainOutside twoFiles (.ok plainPrepared) [copyOf 1] [twoFilesBlock]
      (withOutput sink (ArchiveWriter.new ⟨[], 0⟩ plainPrepared)) =
        (.error .invalidRawFolderLayout,
          withOutput sink (ArchiveWriter.new ⟨[], 0⟩ plainPrepared))) ∧
    ∃ listing, CopiesWhole twoFiles listing [copyOf 0, copyOf 1] ⟨1, 0⟩ := by
  have hout : plainOutside.Honest := fun _ _ h => by cases h
  have hcopy (i : ℕ) : HonestEntry (copyOf i) := trivial
  constructor
  · intro sink
    have hrun : writeArchiveUpdate plainOutside twoFiles (.ok plainPrepared) [copyOf 1] [twoFilesBlock]
        (ArchiveWriter.new ⟨[], 0⟩ plainPrepared) =
          (.error .invalidRawFolderLayout, ArchiveWriter.new ⟨[], 0⟩ plainPrepared) := by rfl
    exact (writeArchiveUpdate_rejects_first hout (by simp [hcopy]) _).1 _ _ hrun (.inr rfl) sink
  · have hrun : (writeArchiveUpdate plainOutside twoFiles (.ok plainPrepared) [copyOf 0, copyOf 1]
        [twoFilesBlock] (ArchiveWriter.new ⟨[], 0⟩ plainPrepared)).1.isOk = true := by decide +kernel
    rcases hwrite : writeArchiveUpdate plainOutside twoFiles (.ok plainPrepared) [copyOf 0, copyOf 1]
      [twoFilesBlock] (ArchiveWriter.new ⟨[], 0⟩ plainPrepared) with ⟨e | ⟨⟩, w'⟩
    · rw [hwrite] at hrun
      cases hrun
    · obtain ⟨listing, -, hcopies⟩ :=
        (writeArchiveUpdate_rejects_first hout (by simp [hcopy]) _).2 w' hwrite
      exact ⟨listing, hcopies (copyOf 0) List.mem_cons_self _ _ rfl⟩

end Write

end R7z
