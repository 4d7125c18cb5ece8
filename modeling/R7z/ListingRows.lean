import R7z.EntryTraversal
import R7z.Listing

/-! What the rows of a listing say: they are numbered from zero, and their folders come in order. -/

namespace R7z

open Effect Effect.Machine Wire Wire.Parser

theorem mapM_id_eq_ok {ε α : Type} : ∀ {results : List (Except ε α)} {values : List α},
    results.mapM id = .ok values → results = values.map .ok
  | [], values, h => by
    cases h
    rfl
  | .error e :: results, values, h => by
    rw [List.mapM_cons] at h
    cases h
  | .ok value :: results, values, h => by
    rw [List.mapM_cons] at h
    cases hrest : results.mapM id with
    | error e =>
      have h : (results.mapM id >>= fun values => .ok (value :: values)) = .ok values := h
      rw [hrest] at h
      cases h
    | ok rest =>
      have h : (results.mapM id >>= fun values => .ok (value :: values)) = .ok values := h
      rw [hrest] at h
      cases h
      rw [List.map_cons, mapM_id_eq_ok hrest]

namespace FileStreams

theorem mapRest_map {T : Type} (g : FileStream → T) : ∀ (turns : ℕ) (files : FileStreams),
    mapRest (fun file => .ok (g file)) turns files =
      (mapRest (fun file => .ok file) turns files).map (Except.map g)
  | 0, _ => rfl
  | turns + 1, files => by
    unfold mapRest
    rcases next files with ⟨e | _ | file, files⟩
    · rfl
    · rfl
    · dsimp only
      rw [List.map_cons, mapRest_map g turns files]
      rfl

end FileStreams

theorem ListedArchive.rows_spec {numFiles : ℕ} {listed : ListedArchive}
    {rows : List ArchiveListingEntry}
    (hnew : FileStreams.new listed.files numFiles listed.streams = .ok listed.fileStreams)
    (h : listed.rows = .ok rows) :
    ∃ folders entries, StreamInfo.folderList listed.streams = .ok folders ∧
      listed.fileStreams.MapsInOrder (folderSubstreams folders) entries ∧
      rows = entries.map (listingEntry listed.files) := by
  have hresults := mapM_id_eq_ok h
  have hwalk : ∀ result ∈ listed.fileStreams.mapAll fun file => .ok file,
      ∃ file, result = .ok file := by
    intro result hresult
    unfold FileStreams.mapAll at hresults
    rw [FileStreams.mapRest_map] at hresults
    have hmem : Except.map (listingEntry listed.files) result ∈ rows.map .ok := by
      rw [← hresults]
      exact List.mem_map_of_mem hresult
    obtain ⟨row, -, hrow⟩ := List.mem_map.mp hmem
    cases result with
    | error e => cases hrow
    | ok file => exact ⟨file, rfl⟩
  obtain ⟨folders, entries, hfolders, hmaps⟩ := FileStreams.mapsInOrder_of_walk hnew hwalk
  refine ⟨folders, entries, hfolders, hmaps, ?_⟩
  rw [hmaps.walk] at hresults
  have hmap : (entries.map (listingEntry listed.files)).map (Except.ok (ε := R7zError)) =
      rows.map .ok := by
    rw [List.map_map]
    exact hresults
  exact (List.map_injective_iff.mpr (fun a b hab => Except.ok.inj hab) hmap).symm

theorem Header.listing_spec {header : Header} {physicalSize : Option ℕ} {listing : ArchiveListing}
    (h : header.listing physicalSize = .ok listing) :
    ∃ listed, header.listed = .ok listed ∧ listed.rows = .ok listing.entries ∧
      FileStreams.new listed.files header.numFiles.toNat listed.streams = .ok listed.fileStreams := by
  obtain ⟨listed, hlisted, h⟩ := except_bind_eq_ok.mp h
  obtain ⟨rows, hrows, h⟩ := except_bind_eq_ok.mp h
  refine ⟨listed, hlisted, ?_, ?_⟩
  · cases h
    exact hrows
  · obtain ⟨streams, -, hlisted⟩ := except_bind_eq_ok.mp hlisted
    obtain ⟨total, -, hlisted⟩ := except_bind_eq_ok.mp hlisted
    obtain ⟨methods, -, hlisted⟩ := except_bind_eq_ok.mp hlisted
    obtain ⟨files, -, hlisted⟩ := except_bind_eq_ok.mp hlisted
    obtain ⟨fileStreams, hnew, hlisted⟩ := except_bind_eq_ok.mp hlisted
    cases hlisted
    exact hnew

@[simp] theorem listingEntry_index (files : Option FilesInfo) (file : FileStream) :
    (listingEntry files file).index = file.index := by
  unfold listingEntry
  cases file.kind <;> rfl

theorem listingEntry_block (files : Option FilesInfo) (file : FileStream) :
    (listingEntry files file).block = file.kind.stream?.map StreamLocation.folderIndex := by
  unfold listingEntry
  cases file.kind <;> rfl

section
variable {header : Header} {physicalSize : Option ℕ} {listing : ArchiveListing}

theorem listing_indices (h : header.listing physicalSize = .ok listing) :
    listing.entries.map ArchiveListingEntry.index = List.range listing.entries.length := by
  obtain ⟨listed, -, hrows, hnew⟩ := Header.listing_spec h
  obtain ⟨folders, entries, -, hmaps, heq⟩ := ListedArchive.rows_spec hnew hrows
  have hlength := congrArg List.length hmaps.indices
  rw [List.length_map, List.length_range] at hlength
  rw [heq, List.map_map, List.length_map, hlength, ← hmaps.indices]
  exact List.map_congr_left fun file _ => listingEntry_index listed.files file

theorem listing_getElem? (h : header.listing physicalSize = .ok listing) {i : ℕ}
    {row : ArchiveListingEntry} (hi : listing.entries[i]? = some row) : row.index = i := by
  have hat := congrArg (·[i]?) (listing_indices h)
  obtain ⟨hlt, -⟩ := List.getElem?_eq_some_iff.mp hi
  rw [List.getElem?_map, hi, List.getElem?_range hlt] at hat
  exact Option.some.inj hat

theorem substreamsOf_ordered (folders : List FolderLayout) : ∀ i : ℕ,
    ((StreamLocations.substreamsOf (folders.zipIdx i)).map StreamLocation.folderIndex).Pairwise (· ≤ ·) ∧
      ∀ location ∈ StreamLocations.substreamsOf (folders.zipIdx i), i ≤ location.folderIndex := by
  induction folders with
  | nil => exact fun i => ⟨List.Pairwise.nil, fun _ h => absurd h List.not_mem_nil⟩
  | cons folder folders ih =>
    intro i
    have hfirst : ∀ location ∈ (StreamLocations.openFolder i folder).left, location.folderIndex = i := by
      intro location hlocation
      obtain ⟨_, -, rfl⟩ := List.mem_map.mp hlocation
      rfl
    obtain ⟨hrest, hle⟩ := ih (i + 1)
    change (((StreamLocations.openFolder i folder).left ++
      StreamLocations.substreamsOf (folders.zipIdx (i + 1))).map StreamLocation.folderIndex).Pairwise _ ∧ _
    rw [List.map_append]
    refine ⟨List.pairwise_append.mpr ⟨?_, hrest, ?_⟩, ?_⟩
    · refine List.pairwise_map.mpr (List.pairwise_of_forall_mem_list fun a ha b hb => ?_)
      rw [hfirst a ha, hfirst b hb]
    · intro a ha b hb
      obtain ⟨location, hlocation, rfl⟩ := List.mem_map.mp ha
      obtain ⟨location', hlocation', rfl⟩ := List.mem_map.mp hb
      rw [hfirst location hlocation]
      exact (Nat.le_succ i).trans (hle location' hlocation')
    · intro location hlocation
      rcases List.mem_append.mp hlocation with hlocation | hlocation
      · exact (hfirst location hlocation).ge
      · exact (Nat.le_succ i).trans (hle location hlocation)

/-- The folders of the rows never go back. -/
theorem listing_blocks (h : header.listing physicalSize = .ok listing) :
    (listing.entries.filterMap ArchiveListingEntry.block).Pairwise (· ≤ ·) := by
  obtain ⟨listed, -, hrows, hnew⟩ := Header.listing_spec h
  obtain ⟨folders, entries, -, hmaps, heq⟩ := ListedArchive.rows_spec hnew hrows
  have hblocks : listing.entries.filterMap ArchiveListingEntry.block =
      (folderSubstreams folders).map StreamLocation.folderIndex := by
    rw [heq, List.filterMap_map, ← hmaps.streams, List.map_filterMap]
    exact List.filterMap_congr fun file _ => listingEntry_block listed.files file
  rw [hblocks]
  exact (substreamsOf_ordered folders 0).1

end

end R7z
