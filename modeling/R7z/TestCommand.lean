import R7z.BatchReads
import R7z.ListingRows
import R7z.Order.Keyed
import R7z.Wildcard

/-! The test of an archive: the rows of its listing that were asked for are taken folder by folder, and read
in one session. A folder that fails is reported, and the next one is tested. -/

namespace R7z

open Effect Effect.Machine

inductive EntryPatterns where
  | All
  | Matching (patterns : List String)
deriving DecidableEq, Repr

namespace EntryPatterns

def matchesName (patterns : EntryPatterns) (name : String) : Bool :=
  match patterns with
  | .All => true
  | .Matching patterns => patterns.any fun pattern => wildcardMatch pattern name

end EntryPatterns

/-- Rows of a listing, from the first one that was asked for. -/
structure SelectedListing where
  entries : List ArchiveListingEntry
  patterns : EntryPatterns

def EntryPatterns.resolveListing (patterns : EntryPatterns) (entries : List ArchiveListingEntry) :
    Option SelectedListing :=
  match patterns with
  | .All => some { entries, patterns }
  | .Matching _ =>
    (entries.findIdx? fun row => patterns.matchesName row.path).map fun first =>
      { entries := entries.drop first, patterns }

def listingFolderGroups (entries : List ArchiveListingEntry) : List (ℕ × List ArchiveListingEntry) :=
  Keyed.cut ArchiveListingEntry.block entries.length entries

namespace SelectedListing

variable (selected : SelectedListing)

def asks (row : ArchiveListingEntry) : Bool := selected.patterns.matchesName row.path

def indices (entries : List ArchiveListingEntry) : List ℕ :=
  (entries.filter fun row => row.block.isSome && selected.asks row).map ArchiveListingEntry.index

/-- The folders that hold entries that were asked for, and the indices of these entries. -/
def folders : List (ℕ × List ℕ) :=
  (listingFolderGroups selected.entries).filterMap fun group =>
    if (selected.indices group.2).isEmpty then none else some (group.1, selected.indices group.2)

theorem groups_cut (entries : List ArchiveListingEntry) :
    Keyed.Cut ArchiveListingEntry.block entries (listingFolderGroups entries) := Keyed.cut_cuts le_rfl

theorem indices_ne_nil {folder : ℕ × List ℕ} (h : folder ∈ selected.folders) : folder.2 ≠ [] := by
  obtain ⟨group, -, hsome⟩ := List.mem_filterMap.mp h
  split at hsome
  · cases hsome
  · rename_i hindices
    cases hsome
    exact fun hnil => hindices (List.isEmpty_iff.mpr hnil)

theorem folders_flatMap : selected.folders.flatMap (fun folder => folder.2.map fun i => (folder.1, i)) =
    (listingFolderGroups selected.entries).flatMap fun group =>
      (selected.indices group.2).map fun i => (group.1, i) := by
  unfold folders
  induction listingFolderGroups selected.entries with
  | nil => rfl
  | cons group groups ih =>
    rw [List.flatMap_cons, ← ih, List.filterMap_cons]
    split
    · rename_i hnone
      split at hnone
      · rename_i hindices
        rw [List.isEmpty_iff.mp hindices, List.map_nil, List.nil_append]
      · cases hnone
    · rename_i folder hsome
      split at hsome
      · cases hsome
      · cases hsome
        rw [List.flatMap_cons]

/-- The folders have each entry that was asked for and has data, in its own folder and in its place. -/
theorem folders_pairs : selected.folders.flatMap (fun folder => folder.2.map fun i => (folder.1, i)) =
    (selected.entries.filter selected.asks).filterMap fun row => row.block.map fun folder => (folder, row.index) := by
  have hpairs := congrArg (List.map (Prod.map id ArchiveListingEntry.index))
    ((groups_cut selected.entries).pairs selected.asks)
  rw [List.map_flatMap, List.map_filterMap] at hpairs
  rw [folders_flatMap]
  refine Eq.trans ?_ (hpairs.trans ?_)
  · refine congrArg (List.flatMap · _) (funext fun group => ?_)
    unfold indices
    rw [List.map_map, List.map_map]
    rfl
  · refine List.filterMap_congr fun row _ => ?_
    rw [Option.map_map]
    rfl

theorem folders_sublist : (selected.folders.map Prod.fst).Sublist
    ((listingFolderGroups selected.entries).map Prod.fst) := by
  unfold folders
  induction listingFolderGroups selected.entries with
  | nil => exact List.Sublist.slnil
  | cons group groups ih =>
    rw [List.filterMap_cons]
    split
    · exact ih.cons _
    · rename_i folder hsome
      split at hsome
      · cases hsome
      · cases hsome
        exact ih.cons_cons _

end SelectedListing

theorem EntryPatterns.resolveListing_some {patterns : EntryPatterns}
    {entries : List ArchiveListingEntry} {selected : SelectedListing}
    (h : patterns.resolveListing entries = some selected) :
    selected.patterns = patterns ∧
      ∃ front, entries = front ++ selected.entries ∧ ∀ row ∈ front, patterns.matchesName row.path = false := by
  unfold resolveListing at h
  cases patterns with
  | All =>
    cases h
    exact ⟨rfl, [], rfl, fun row hrow => absurd hrow List.not_mem_nil⟩
  | Matching patterns =>
    obtain ⟨first, hfirst, rfl⟩ := Option.map_eq_some_iff.mp h
    refine ⟨rfl, entries.take first, (List.take_append_drop first entries).symm, fun row hrow => ?_⟩
    obtain ⟨hlt, -, hbefore⟩ := List.findIdx?_eq_some_iff_getElem.mp hfirst
    obtain ⟨j, hj, rfl⟩ := List.mem_take_iff_getElem.mp hrow
    exact Bool.eq_false_iff.mpr (hbefore j (by omega))

theorem EntryPatterns.resolveListing_pairs {patterns : EntryPatterns} {entries : List ArchiveListingEntry}
    {selected : SelectedListing} (h : patterns.resolveListing entries = some selected) :
    selected.folders.flatMap (fun folder => folder.2.map fun i => (folder.1, i)) =
      (entries.filter fun row => patterns.matchesName row.path).filterMap
        (fun row => row.block.map fun folder => (folder, row.index)) := by
  obtain ⟨rfl, front, hentries, hfront⟩ := resolveListing_some h
  have hnone : front.filter selected.asks = [] :=
    List.filter_eq_nil_iff.mpr fun row hrow => Bool.eq_false_iff.mp (hfront row hrow)
  change _ = (entries.filter selected.asks).filterMap _
  rw [hentries, List.filter_append, hnone, List.nil_append]
  exact selected.folders_pairs

theorem filterMap_block : ∀ rows : List ArchiveListingEntry,
    rows.filterMap (fun row => (row.block.map fun folder => (folder, row.index)).map Prod.snd) =
      (rows.filter fun row => row.block.isSome).map ArchiveListingEntry.index
  | [] => rfl
  | row :: rows => by
    cases hblock : row.block with
    | none =>
      rw [List.filterMap_cons_none (by rw [hblock]; rfl), filterMap_block rows,
        List.filter_cons_of_neg (by rw [hblock]; exact Bool.false_ne_true)]
    | some folder =>
      rw [List.filterMap_cons_some (b := row.index) (by rw [hblock]; rfl), filterMap_block rows,
        List.filter_cons_of_pos (by rw [hblock]; rfl), List.map_cons]

theorem folders_increasing {header : Header} {physicalSize : Option ℕ} {listing : ArchiveListing}
    (hlisting : header.listing physicalSize = .ok listing) {patterns : EntryPatterns}
    {selected : SelectedListing} (hselected : patterns.resolveListing listing.entries = some selected) :
    (selected.folders.map Prod.fst).Pairwise (· < ·) := by
  obtain ⟨rfl, front, hentries, -⟩ := EntryPatterns.resolveListing_some hselected
  refine (Keyed.Cut.increasing (SelectedListing.groups_cut selected.entries) ?_).sublist selected.folders_sublist
  have hblocks := listing_blocks hlisting
  rw [hentries, List.filterMap_append] at hblocks
  exact (List.pairwise_append.mp hblocks).2.1

theorem indices_increasing {header : Header} {physicalSize : Option ℕ} {listing : ArchiveListing}
    (hlisting : header.listing physicalSize = .ok listing) {patterns : EntryPatterns}
    {selected : SelectedListing} (hselected : patterns.resolveListing listing.entries = some selected) :
    (selected.folders.flatMap Prod.snd).Pairwise (· < ·) := by
  have hpairs := EntryPatterns.resolveListing_pairs hselected
  obtain ⟨rfl, -⟩ := EntryPatterns.resolveListing_some hselected
  have hindices : selected.folders.flatMap Prod.snd =
      ((listing.entries.filter selected.asks).filter fun row => row.block.isSome).map ArchiveListingEntry.index := by
    have hsnd := congrArg (List.map Prod.snd) hpairs
    rw [List.map_flatMap, List.map_filterMap] at hsnd
    refine Eq.trans (congrArg (List.flatMap · _) (funext fun folder => ?_)) (hsnd.trans ?_)
    · rw [List.map_map]
      exact (List.map_id _).symm
    · exact filterMap_block _
  have hrange : (listing.entries.map ArchiveListingEntry.index).Pairwise (· < ·) := by
    rw [listing_indices hlisting]
    exact List.pairwise_lt_range
  rw [hindices]
  exact hrange.sublist ((List.filter_sublist.trans List.filter_sublist).map _)

/-- The groups of a selection have every entry that was asked for and has data exactly once, under its own
folder. Folders come in order, and so do the indices. -/
theorem folders_of_listing {header : Header} {physicalSize : Option ℕ} {listing : ArchiveListing}
    (hlisting : header.listing physicalSize = .ok listing) {patterns : EntryPatterns}
    {selected : SelectedListing} (hselected : patterns.resolveListing listing.entries = some selected) :
    selected.folders.flatMap (fun folder => folder.2.map fun i => (folder.1, i)) =
        (listing.entries.filter fun row => patterns.matchesName row.path).filterMap
          (fun row => row.block.map fun folder => (folder, row.index)) ∧
      (selected.folders.map Prod.fst).Pairwise (· < ·) ∧
      (selected.folders.flatMap Prod.snd).Pairwise (· < ·) ∧
      ∀ folder ∈ selected.folders, folder.2 ≠ [] :=
  ⟨EntryPatterns.resolveListing_pairs hselected, folders_increasing hlisting hselected,
    indices_increasing hlisting hselected, fun _ => selected.indices_ne_nil⟩

def packedArchive : Except R7zError Header := do
  match ← Header.resolveArchive ⟨0, ArchiveReadSession.packedHeader⟩ with
  | .complete header => return header
  | .requiresExternalFolders _ => .error .parse

/-- Of the two entries of the packed archive, the second one is asked for. -/
theorem folders_of_listing_packed : ∃ header listing selected, packedArchive = .ok header ∧
    header.listing none = .ok listing ∧
    (EntryPatterns.Matching ["*1"]).resolveListing listing.entries = some selected ∧
    selected.folders.flatMap (fun folder => folder.2.map fun i => (folder.1, i)) =
      (listing.entries.filter fun row => (EntryPatterns.Matching ["*1"]).matchesName row.path).filterMap
          (fun row => row.block.map fun folder => (folder, row.index)) ∧
    (selected.folders.map Prod.fst).Pairwise (· < ·) ∧
    (selected.folders.flatMap Prod.snd).Pairwise (· < ·) ∧
    ∀ folder ∈ selected.folders, folder.2 ≠ [] := by
  have hrun : (packedArchive.toOption.bind fun header => (header.listing none).toOption.bind fun listing =>
      (EntryPatterns.Matching ["*1"]).resolveListing listing.entries).isSome = true := by
    decide +kernel
  obtain ⟨selected, hrun⟩ := Option.isSome_iff_exists.mp hrun
  obtain ⟨header, hheader, hrun⟩ := Option.bind_eq_some_iff.mp hrun
  obtain ⟨listing, hlisting, hselected⟩ := Option.bind_eq_some_iff.mp hrun
  have hlisting := Wire.toOption_eq_some.mp hlisting
  exact ⟨header, listing, selected, Wire.toOption_eq_some.mp hheader, hlisting, hselected, folders_of_listing hlisting hselected⟩

section
variable {ω δ : Type} (env : Environment ω δ)

def sink : EntryWriter where
  room _ := 8 * 1024
  fault _ := none

namespace ArchiveReadSession

end ArchiveReadSession

namespace ArchiveReadSession

variable {limits : ResourceLimits} {start : FileStreams} {packs : PackedSource} {password : Option String}

structure Sound (limits : ResourceLimits) (start : FileStreams) (packs : PackedSource) (password : Option String)
    (session : ArchiveReadSession ω δ) : Prop where
  watched : session.Watched env.crc32 limits start
  recorded : session.decoder.Recorded env packs password

end ArchiveReadSession

/-! The pass over the folders -/

end

end R7z
