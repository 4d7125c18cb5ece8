import R7z.Update.PlannedUpdate

/-! A planned update is never refused: neither by the check against its source nor when its rows are staged. -/

namespace R7z

open Wire Effect Effect.Machine

namespace Write

/-! Staging -/

namespace StagedDataFolders

theorem assign_target {folders folders' : StagedDataFolders} {solid : SolidMode} {size : UInt64}
    {target : WriteFolderId} (h : folders.assign solid size = .ok (folders', target)) :
    (∃ progress, folders'.current = some (target, progress)) ∧
      ((folders'.next = folders.next ∧ ∃ progress, folders.current = some (target, progress)) ∨
        target = folders.next ∧ folders'.next = folders.next + 1) := by
  obtain ⟨⟨opened, target', progress⟩, hopen, h⟩ := except_bind_eq_ok.mp h
  obtain ⟨progress', -, h⟩ := except_bind_eq_ok.mp h
  cases h
  refine ⟨⟨progress', rfl⟩, ?_⟩
  have hfresh : ∀ {opened : StagedDataFolders × WriteFolderId × FolderProgress},
      (do
        let next ← WriteFolderId.next folders.next
        return ({ next, current := some (folders.next, FolderProgress.default) }, folders.next,
          FolderProgress.default) : Except R7zError _) = .ok opened →
        opened.2.1 = folders.next ∧ opened.1.next = folders.next + 1 := by
    intro opened hopened
    obtain ⟨next, hnext, hopened⟩ := except_bind_eq_ok.mp hopened
    cases hopened
    unfold WriteFolderId.next at hnext
    split at hnext
    · exact ⟨rfl, (Except.ok.inj hnext).symm⟩
    · cases hnext
  unfold openFolder at hopen
  cases hcurrent : folders.current with
  | none =>
    rw [hcurrent] at hopen
    exact .inr (hfresh hopen)
  | some current =>
    obtain ⟨target', progress'⟩ := current
    rw [hcurrent] at hopen
    obtain ⟨exceeds, -, hopen⟩ := except_bind_eq_ok.mp hopen
    cases exceeds with
    | true => exact .inr (hfresh hopen)
    | false =>
      cases hopen
      exact .inl ⟨rfl, _, rfl⟩

end StagedDataFolders

/-! Errors of staging -/

theorem next_harmless (id : WriteFolderId) : ∀ e, WriteFolderId.next id = .error e → ¬Rejection e := by
  intro e h
  unfold WriteFolderId.next at h
  split at h
  · cases h
  · cases h
    decide

theorem wouldExceed_harmless (progress : FolderProgress) (solid : SolidMode) (size : UInt64) :
    ∀ e, progress.wouldExceed solid size = .error e → ¬Rejection e := by
  intro e h
  unfold FolderProgress.wouldExceed at h
  cases solid with
  | Solid => cases h
  | NonSolid => cases h
  | Limit maxFiles maxBytes =>
    rcases except_bind_eq_error.mp h with h | ⟨_, -, h⟩
    · exact checkedAdd_harmless (by decide) _ _ _ h
    rcases except_bind_eq_error.mp h with h | ⟨_, -, h⟩
    · exact checkedAdd_harmless (by decide) _ _ _ h
    · cases h

theorem record_harmless (progress : FolderProgress) (size : UInt64) :
    ∀ e, progress.record size = .error e → ¬Rejection e := by
  intro e h
  rcases except_bind_eq_error.mp h with h | ⟨_, -, h⟩
  · exact checkedAdd_harmless (by decide) _ _ _ h
  rcases except_bind_eq_error.mp h with h | ⟨_, -, h⟩
  · exact checkedAdd_harmless (by decide) _ _ _ h
  · cases h

theorem assign_harmless (folders : StagedDataFolders) (solid : SolidMode) (size : UInt64) :
    ∀ e, folders.assign solid size = .error e → ¬Rejection e := by
  intro e h
  rcases except_bind_eq_error.mp h with h | ⟨opened, -, h⟩
  · have hfresh : ∀ e, (do
        let next ← WriteFolderId.next folders.next
        return ({ next, current := some (folders.next, FolderProgress.default) }, folders.next,
          FolderProgress.default) : Except R7zError (StagedDataFolders × WriteFolderId × FolderProgress)) = .error e →
          ¬Rejection e := by
      intro e h
      rcases except_bind_eq_error.mp h with h | ⟨_, -, h⟩
      · exact next_harmless _ e h
      · cases h
    unfold StagedDataFolders.openFolder at h
    cases hcurrent : folders.current with
    | none =>
      rw [hcurrent] at h
      exact hfresh e h
    | some current =>
      rw [hcurrent] at h
      rcases except_bind_eq_error.mp h with h | ⟨exceeds, -, h⟩
      · exact wouldExceed_harmless _ _ _ e h
      · cases exceeds with
        | true => exact hfresh e h
        | false => cases h
  · rcases except_bind_eq_error.mp h with h | ⟨_, -, h⟩
    · exact record_harmless _ _ e h
    · cases h

section
variable {rawFolders : List RawFolderBlock} {solid : SolidMode}

def NamesBlock (rawFolders : List RawFolderBlock) (entry : PreservedArchiveEntry) : Prop :=
  ∀ folder sourceEntry, entry.stream.rawRow = some (folder, sourceEntry) →
    ∃ raw, rawById rawFolders folder.index = some raw ∧ raw.handle = folder

theorem stageStream_harmless {folders : StagedDataFolders} {entry : PreservedArchiveEntry}
    (hentry : NamesBlock rawFolders entry) :
    ∀ e, stageStream rawFolders solid folders entry.stream = .error e → ¬Rejection e := by
  intro e h
  unfold NamesBlock at hentry
  cases hstream : entry.stream with
  | None =>
    rw [hstream] at h
    cases h
  | Raw folder sourceEntry size crc =>
    rw [hstream] at h hentry
    obtain ⟨raw, hraw, hhandle⟩ := hentry folder sourceEntry rfl
    unfold stageStream at h
    dsimp only at h
    rw [hraw, if_neg (by simp [hhandle])] at h
    cases h
  | Data data =>
    rw [hstream] at h
    rcases except_bind_eq_error.mp h with h | ⟨_, -, h⟩
    · exact assign_harmless _ _ _ e h
    · cases h
  | Path file size =>
    rw [hstream] at h
    rcases except_bind_eq_error.mp h with h | ⟨_, -, h⟩
    · exact assign_harmless _ _ _ e h
    · cases h

theorem stageEntries_harmless : ∀ {entries : List PreservedArchiveEntry} {folders : StagedDataFolders},
    (∀ entry ∈ entries, NamesBlock rawFolders entry) →
      ∀ e, stageEntries rawFolders solid folders entries = .error e → ¬Rejection e
  | [], _, _, _, h => by cases h
  | entry :: entries, folders, hentries, e, h => by
    obtain ⟨hentry, hentries⟩ := List.forall_mem_cons.mp hentries
    rcases except_bind_eq_error.mp h with h | ⟨_, -, h⟩
    · exact stageStream_harmless hentry e h
    rcases except_bind_eq_error.mp h with h | ⟨_, -, h⟩
    · exact stageEntries_harmless hentries e h
    · cases h

/-! Runs of staging -/

/-- Where the pass over the staged rows stands: numbers under `reached` were copied folders, the others
are those of new data, of which the one in use is open. -/
structure Passed (first : WriteFolderId) (reached : ℕ) (current : Option WriteFolderId)
    (seen : List WriteFolderId) (folders : StagedDataFolders) : Prop where
  below : reached ≤ first
  next : first ≤ folders.next
  seen : ∀ id ∈ seen, id < reached ∨ first ≤ id ∧ id < folders.next
  opened : ∀ id progress, folders.current = some (id, progress) →
    current = some id ∧ first ≤ id ∧ id < folders.next

theorem runsFrom_cons {current : Option ℕ} {seen ids : List ℕ} {id : ℕ} (hid : id ∉ seen ∨ current = some id)
    (h : ∀ seen' : List ℕ, (∀ other ∈ seen', other ∈ seen ∨ other = id) → Runs.runsFrom (some id) seen' ids = true) :
    Runs.runsFrom current seen (id :: ids) = true := by
  unfold Runs.runsFrom
  by_cases hcurrent : current = some id
  · rw [if_pos hcurrent, hcurrent]
    exact h seen fun _ hmem => .inl hmem
  · rw [if_neg hcurrent, if_neg (hid.resolve_right hcurrent)]
    exact h (id :: seen) fun other hmem => (List.mem_cons.mp hmem).symm

variable {first : WriteFolderId} {reached : ℕ} {current : Option WriteFolderId} {seen : List WriteFolderId}
  {folders folders' : StagedDataFolders}

theorem Passed.copied (h : Passed first reached current seen folders) {id : WriteFolderId} (hreached : reached ≤ id)
    (hfirst : id < first) : id ∉ seen ∧ ∀ seen' : List ℕ, (∀ other ∈ seen', other ∈ seen ∨ other = id) →
      Passed first (id + 1) (some id) seen' folders.breakFolder := by
  constructor
  · intro hmem
    rcases h.seen id hmem with hlt | ⟨hle, -⟩
    · exact absurd hlt (Nat.not_lt.mpr hreached)
    · exact absurd hfirst (Nat.not_lt.mpr hle)
  · intro seen' hseen
    refine ⟨hfirst, h.next, fun other hother => ?_, fun _ _ hnone => by cases hnone⟩
    rcases hseen other hother with hmem | rfl
    · exact (h.seen other hmem).imp_left fun hlt => (hlt.trans_le hreached).trans (Nat.lt_succ_self _)
    · exact .inl (Nat.lt_succ_self _)

theorem Passed.assigned (h : Passed first reached current seen folders) {size : UInt64} {id : WriteFolderId}
    (hassign : folders.assign solid size = .ok (folders', id)) :
    (id ∉ seen ∨ current = some id) ∧ ∀ seen' : List ℕ, (∀ other ∈ seen', other ∈ seen ∨ other = id) →
      Passed first reached (some id) seen' folders' := by
  obtain ⟨⟨progress, hprogress⟩, htarget⟩ := StagedDataFolders.assign_target hassign
  have hopened : first ≤ id → id < folders'.next → ∀ other progress, folders'.current = some (other, progress) →
      some id = some other ∧ first ≤ other ∧ other < folders'.next := by
    intro hle hlt other progress' hother
    rw [hprogress] at hother
    cases hother
    exact ⟨rfl, hle, hlt⟩
  rcases htarget with ⟨hnext, progress', hopen⟩ | ⟨rfl, hnext⟩
  · obtain ⟨hcurrent, hle, hlt⟩ := h.opened _ _ hopen
    refine ⟨.inr hcurrent, fun seen' hseen => ?_⟩
    refine ⟨h.below, hnext ▸ h.next, fun other hother => ?_, hopened hle (hnext ▸ hlt)⟩
    rw [hnext]
    rcases hseen other hother with hmem | rfl
    · exact h.seen other hmem
    · exact .inr ⟨hle, hlt⟩
  · have hlt : folders.next < folders'.next := hnext ▸ Nat.lt_succ_self _
    have hnew : folders.next ∉ seen := by
      intro hmem
      rcases h.seen _ hmem with hlt | ⟨-, hlt⟩
      · exact absurd (h.below.trans h.next) (Nat.not_le.mpr hlt)
      · exact lt_irrefl _ hlt
    refine ⟨.inl hnew, fun seen' hseen => ?_⟩
    refine ⟨h.below, h.next.trans hlt.le, fun other hother => ?_, hopened h.next hlt⟩
    rcases hseen other hother with hmem | rfl
    · exact (h.seen other hmem).imp_right fun ⟨hle, hother⟩ => ⟨hle, hother.trans hlt⟩
    · exact .inr ⟨h.next, hlt⟩

/-- Rows whose copied folders come in order are staged in runs. -/
theorem stageEntries_runs (hraw : ∀ raw ∈ rawFolders, raw.handle.index < first) :
    ∀ {entries : List PreservedArchiveEntry} {staged : List StagedEntry} {folders : StagedDataFolders} {reached : ℕ}
      {opened current : Option WriteFolderId} {seen : List WriteFolderId},
      Passed first reached current seen folders → (∀ id, opened = some id → current = some id) →
        Runs.Rising opened reached ((owners entries).map PreservedArchiveEntry.copied) →
          stageEntries rawFolders solid folders entries = .ok staged →
            Runs.runsFrom current seen (staged.filterMap StagedEntry.folderId) = true
  | [], staged, _, _, _, _, _, _, _, _, h => by
    cases h
    rfl
  | entry :: entries, staged, folders, reached, opened, current, seen, hpassed, hopened, hrising, h => by
    obtain ⟨⟨folders', stream⟩, hstream, h⟩ := except_bind_eq_ok.mp h
    obtain ⟨rest, hrest, h⟩ := except_bind_eq_ok.mp h
    cases h
    unfold owners at hrising
    rw [List.filter_cons] at hrising
    -- new data: no folder is copied, and none is open any more
    have hdata : ∀ {size : UInt64} {id : WriteFolderId}, entry.stream.owned = true → entry.copied = none →
        folders.assign solid size = .ok (folders', id) →
          Runs.runsFrom current seen (id :: rest.filterMap StagedEntry.folderId) = true := by
      intro size id howned hcopied hassign
      rw [if_pos howned, List.map_cons, hcopied] at hrising
      cases hrising with
      | other hrising =>
        obtain ⟨hid, hpassed⟩ := hpassed.assigned hassign
        exact runsFrom_cons hid fun seen' hseen =>
          stageEntries_runs hraw (hpassed seen' hseen) (fun _ h => by cases h) hrising hrest
    cases hentry : entry.stream with
    | None =>
      rw [hentry] at hstream hrising
      cases hstream
      change Runs.runsFrom current seen (rest.filterMap StagedEntry.folderId) = true
      exact stageEntries_runs hraw hpassed hopened hrising hrest
    | Data data =>
      rw [hentry] at hstream
      obtain ⟨⟨assigned, id⟩, hassign, hstream⟩ := except_bind_eq_ok.mp hstream
      cases hstream
      exact hdata (by rw [hentry]; rfl) (by unfold PreservedArchiveEntry.copied; rw [hentry]; rfl) hassign
    | Path file size =>
      rw [hentry] at hstream
      obtain ⟨⟨assigned, id⟩, hassign, hstream⟩ := except_bind_eq_ok.mp hstream
      cases hstream
      exact hdata (by rw [hentry]; rfl) (by unfold PreservedArchiveEntry.copied; rw [hentry]; rfl) hassign
    | Raw folder sourceEntry size crc =>
      rw [hentry] at hstream
      have howned : entry.stream.owned = true := by
        rw [hentry]
        rfl
      have hcopied : entry.copied = some folder.index := by
        unfold PreservedArchiveEntry.copied
        rw [hentry]
        rfl
      unfold stageStream at hstream
      dsimp only at hstream
      split at hstream
      · cases hstream
      rename_i hblock
      cases hstream
      have hfirst : folder.index < first := by
        cases hfound : rawById rawFolders folder.index with
        | none => simp [hfound] at hblock
        | some raw =>
          obtain ⟨hmem, hindex⟩ := rawById_spec hfound
          exact hindex ▸ hraw raw hmem
      rw [if_pos howned, List.map_cons, hcopied] at hrising
      change Runs.runsFrom current seen (folder.index :: rest.filterMap StagedEntry.folderId) = true
      -- a copy goes on with the folder that is open, or opens one that no row had
      generalize folder.index = id at hrising hfirst
      cases hrising with
      | same hrising =>
        have hbroken : Passed first reached current seen folders.breakFolder :=
          ⟨hpassed.below, hpassed.next, hpassed.seen, fun _ _ h => absurd h (Option.some_ne_none _).symm⟩
        unfold Runs.runsFrom
        rw [if_pos (hopened _ rfl)]
        exact stageEntries_runs hraw hbroken hopened hrising hrest
      | next hle hrising =>
        obtain ⟨hid, hpassed⟩ := hpassed.copied hle hfirst
        exact runsFrom_cons (.inl hid) fun seen' hseen =>
          stageEntries_runs hraw (hpassed seen' hseen) (fun _ h => h) hrising hrest

theorem stagePreservedEntries_harmless {entries : List PreservedArchiveEntry}
    (hnames : ∀ entry ∈ entries, NamesBlock rawFolders entry)
    (hrising : Runs.Rising none 0 ((owners entries).map PreservedArchiveEntry.copied)) :
    ∀ e, stagePreservedEntries entries rawFolders solid = .error e → ¬Rejection e := by
  intro e h
  rcases except_bind_eq_error.mp h with h | ⟨first, hfirst, h⟩
  · exact next_harmless _ e h
  rcases except_bind_eq_error.mp h with h | ⟨staged, hstaged, h⟩
  · exact stageEntries_harmless hnames e h
  have hmax : first = maxRawFolder rawFolders + 1 := by
    unfold WriteFolderId.next at hfirst
    split at hfirst
    · exact (Except.ok.inj hfirst).symm
    · cases hfirst
  have hruns := @stageEntries_runs rawFolders solid first
    (fun raw hraw => hmax ▸ Nat.lt_succ_of_le (le_maxRawFolder hraw)) entries staged (.new first) 0 none none []
    ⟨Nat.zero_le _, Nat.le_refl _, fun _ h => absurd h List.not_mem_nil, fun _ _ h => by cases h⟩
    (fun _ h => by cases h) hrising hstaged
  dsimp only at h
  rw [if_pos hruns] at h
  cases h

end

/-! Planned updates -/

section
variable {archive : Archive} {crc32 : List UInt8 → UInt32} {extract : ℕ → Except R7zError (List UInt8)}
  {shouldDrop : Entry → Bool} {appendEntries : List PendingEntry} {entries : List PreservedArchiveEntry}
  {rawFolders : List RawFolderBlock} {listing : ArchiveListing}

theorem KeptRow.namesBlock {files : FilesInfo} {named : List Entry} {row : ArchiveListingEntry}
    {action : RetainedEntryAction} {kept : PreservedArchiveEntry}
    (h : KeptRow files named rawFolders extract row action kept) : NamesBlock rawFolders kept := by
  intro folder sourceEntry hrow
  have hstream := h.stream
  generalize kept.stream = stream at hstream hrow
  cases hstream with
  | none | data => cases hrow
  | raw hraw _ =>
    cases hrow
    exact ⟨_, by rw [(rawById_spec hraw).2, hraw], rfl⟩

theorem KeptRow.honest {files : FilesInfo} {named : List Entry} {row : ArchiveListingEntry}
    {action : RetainedEntryAction} {kept : PreservedArchiveEntry}
    (h : KeptRow files named rawFolders extract row action kept) : HonestEntry kept := by
  have hstream := h.stream
  unfold HonestEntry
  generalize kept.stream = stream at hstream
  cases hstream <;> trivial

theorem planned_accepted {files : FilesInfo} {named : List Entry} {retained : ℕ → Bool} {kept : List PreservedArchiveEntry}
    (hlisting : archive.header.listing (some archive.source.bytes.length) = .ok listing)
    (hbelong : ∀ raw ∈ rawFolders, raw.handle.belongsTo archive = true)
    (hkept : List.Forall₂ (fun row kept =>
        KeptRow files named rawFolders extract row (decision retained listing.entries row) kept)
      (listing.entries.filter fun row => retained row.index) kept) (appendEntries : List PendingEntry) :
    validateRawFolderUpdate archive (kept ++ appendEntries.map PendingEntry.toPreserved) rawFolders = .ok () ∧
      ∀ solid e, stagePreservedEntries (kept ++ appendEntries.map PendingEntry.toPreserved) rawFolders solid = .error e →
        ¬Rejection e := by
  refine ⟨validateRawFolderUpdate_iff.mpr ⟨listing, hlisting, planned_fits hlisting hbelong hkept _⟩, fun solid => ?_⟩
  refine stagePreservedEntries_harmless (fun entry hentry => ?_) (planned_rising (listing_blocks hlisting) hkept _)
  rcases List.mem_append.mp hentry with hentry | hentry
  · obtain ⟨row, -, hplanned⟩ := exists_of_planned hkept hentry
    exact hplanned.namesBlock
  · obtain ⟨pending, -, rfl⟩ := List.mem_map.mp hentry
    intro folder sourceEntry hrow
    rw [toPreserved_rawRow] at hrow
    cases hrow

theorem plan_accepted (hlisting : archive.header.listing (some archive.source.bytes.length) = .ok listing)
    (hplan : preservedRewriteEntries archive crc32 extract shouldDrop appendEntries = .ok (entries, rawFolders)) :
    validateRawFolderUpdate archive entries rawFolders = .ok () ∧
      ∀ solid e, stagePreservedEntries entries rawFolders solid = .error e → ¬Rejection e := by
  cases hfiles : archive.header.filesInfo with
  | none =>
    unfold preservedRewriteEntries at hplan
    rw [hfiles] at hplan
    cases hplan
    have hnone : listing.entries.filter (fun row => (fun _ : ℕ => false) row.index) = [] :=
      List.filter_eq_nil_iff.mpr fun _ _ => Bool.false_ne_true
    have hkept : List.Forall₂ (fun row kept => KeptRow (FilesInfo.empty 0) [] [] extract row
        (decision (fun _ => false) listing.entries row) kept)
          (listing.entries.filter fun row => (fun _ : ℕ => false) row.index) [] := by
      rw [hnone]
      exact .nil
    exact planned_accepted hlisting (fun _ h => absurd h List.not_mem_nil) hkept appendEntries
  | some files =>
    obtain ⟨hraws, kept, rfl, hkept⟩ := preservedRewriteEntries_spec hfiles hlisting hplan
    exact planned_accepted hlisting (preservedRawFolders_belong hraws) hkept appendEntries

theorem plan_honest (hnew : ∀ entry ∈ appendEntries, HonestEntry entry.toPreserved)
    (hlisting : archive.header.listing (some archive.source.bytes.length) = .ok listing)
    (hplan : preservedRewriteEntries archive crc32 extract shouldDrop appendEntries = .ok (entries, rawFolders)) :
    ∀ entry ∈ entries, HonestEntry entry := by
  have happended : ∀ entry ∈ appendEntries.map PendingEntry.toPreserved, HonestEntry entry :=
    List.forall_mem_map.mpr hnew
  cases hfiles : archive.header.filesInfo with
  | none =>
    unfold preservedRewriteEntries at hplan
    rw [hfiles] at hplan
    cases hplan
    exact happended
  | some files =>
    obtain ⟨-, kept, rfl, hkept⟩ := preservedRewriteEntries_spec hfiles hlisting hplan
    intro entry hentry
    rcases List.mem_append.mp hentry with hentry | hentry
    · obtain ⟨row, -, hplanned⟩ := exists_of_planned hkept hentry
      exact hplanned.honest
    · exact happended entry hentry

/-- What is planned from an archive is never refused as not fitting it. -/
theorem planned_never_refused {outside : Outside} {options : Except R7zError PreparedArchiveOptions}
    (hout : outside.Honest) (hoptions : ∀ e, options = .error e → ¬Rejection e)
    (hnew : ∀ entry ∈ appendEntries, HonestEntry entry.toPreserved)
    (hlisting : archive.header.listing (some archive.source.bytes.length) = .ok listing)
    (hplan : preservedRewriteEntries archive crc32 extract shouldDrop appendEntries = .ok (entries, rawFolders)) :
    validateRawFolderUpdate archive entries rawFolders = .ok () ∧
      ∀ w e w', writeArchiveUpdate outside archive options entries rawFolders w = (.error e, w') → ¬Rejection e := by
  obtain ⟨hvalid, hstage⟩ := plan_accepted hlisting hplan
  have hhonest := plan_honest hnew hlisting hplan
  refine ⟨hvalid, ?_⟩
  have hharmless : Harmless (writeArchiveUpdate outside archive options entries rawFolders) := by
    unfold writeArchiveUpdate writePreservedArchive
    refine Fails.ofExcept_bind (fun e he => ?_) fun _ _ => ?_
    · rw [hvalid] at he
      cases he
    refine (Fails.ofExcept hoptions).bind fun prepared => (external_harmless hout).bind fun _ => ?_
    refine (Fails.forEach (fun entry => ?_) entries).bind fun _ => ?_
    · unfold reserveRetained
      cases entry.stream with
      | Data => exact external_harmless hout
      | None | Path | Raw => exact Fails.pure ()
    refine Fails.ofExcept_bind (hstage _) fun staged hstaged => ?_
    exact writeStaged_harmless hout prepared rawFolders
      (honest_of_stages (stagePreservedEntries_spec hstaged).1 hhonest)
  exact hharmless

def storedFiles : Archive :=
  { twoFiles with source := { bytes := List.replicate 32 0 ++ [7, 8], fails := fun _ _ => none } }

/-- A plan that drops nothing copies the folder, and is not refused. -/
theorem planned_never_refused_stored : ∃ entries rawFolders,
    preservedRewriteEntries storedFiles (fun _ => 0) (fun _ => .error .io) (fun _ => false)
      [{ name := "new", kind := .EmptyFile, metadata := EntryMeta.default }] = .ok (entries, rawFolders) ∧
    rawFolders.length = 1 ∧ validateRawFolderUpdate storedFiles entries rawFolders = .ok () ∧
    ∀ w e w', writeArchiveUpdate plainOutside storedFiles (.ok plainPrepared) entries rawFolders w = (.error e, w') →
      ¬Rejection e := by
  have hrun : (match preservedRewriteEntries storedFiles (fun _ => 0) (fun _ => .error .io) (fun _ => false)
      [{ name := "new", kind := .EmptyFile, metadata := EntryMeta.default }] with
    | .error _ => false
    | .ok plan => decide (plan.2.length = 1)) = true := by decide +kernel
  have hlisted : (storedFiles.header.listing (some storedFiles.source.bytes.length)).isOk := by decide +kernel
  obtain ⟨listing, hlisting⟩ := eq_ok_of_isOk hlisted
  cases hplan : preservedRewriteEntries storedFiles (fun _ => 0) (fun _ => .error .io) (fun _ => false)
      [{ name := "new", kind := .EmptyFile, metadata := EntryMeta.default }] with
  | error e =>
    rw [hplan] at hrun
    cases hrun
  | ok plan =>
    rw [hplan] at hrun
    refine ⟨plan.1, plan.2, rfl, of_decide_eq_true hrun, ?_⟩
    have hout : plainOutside.Honest := fun _ _ h => by cases h
    have hoptions : ∀ e, (.ok plainPrepared : Except R7zError PreparedArchiveOptions) = .error e → ¬Rejection e :=
      fun _ h => by cases h
    exact planned_never_refused hout hoptions (by simp [HonestEntry, PendingEntry.toPreserved]) hlisting hplan

end

end Write

end R7z
