import R7z.FailedWriter
import R7z.FolderSizes
import R7z.GraphOrder
import R7z.Update.Staging

/-! Folders that are planned before they are written: by the builder for its entries, and by an update
for the rows with new data. -/

namespace R7z

open Wire Effect Effect.Machine Write

namespace Write

/-! The builder -/

section
variable {outside : Outside} {prepared : PreparedArchiveOptions} {folders : Folders}

/-- A writer that is where the plan is: as many complete folders as the number of the folder in use, and
the progress of the plan for the open one. -/
structure Planned (prepared : PreparedArchiveOptions) (folderId : WriteFolderId)
    (progress : FolderProgress) (w : ArchiveWriter) (folders : Folders) : Prop where
  stands : Stands prepared folders w
  number : folders.complete.length = folderId
  complete : ∀ sizes ∈ folders.complete, prepared.solid.Within True sizes
  tallies : progress.Tallies ((folders.current.map Prod.fst).getD [])
  current : ∀ sizes ∈ folders.current.map Prod.fst, prepared.solid.Within True sizes

theorem Planned.completed {folderId : WriteFolderId} {progress : FolderProgress} {w : ArchiveWriter}
    (h : Planned prepared folderId progress w folders) :
    ∀ sizes ∈ folders.completed.complete, prepared.solid.Within True sizes := by
  intro sizes hsizes
  rcases List.mem_append.mp hsizes with hsizes | hsizes
  · exact h.complete sizes hsizes
  · exact h.current sizes (Option.mem_toList.mp hsizes)

theorem nextFolderId_stands {w : ArchiveWriter} (hw : Stands prepared folders w) :
    ArchiveWriter.nextFolderId w = (.ok folders.complete.length, w) := by
  obtain ⟨_, hfolders⟩ := stands_iff.mp hw
  rw [ArchiveWriter.nextFolderId, bind_of_ok (rfl : Machine.get w = (.ok w, w))]
  cases hstate : w.state with
  | Failed =>
    rw [hstate] at hfolders
    cases hfolders
  | Ready | Active =>
    rw [hstate] at hfolders
    cases hfolders
    rw [List.length_map]
    rfl

theorem advanceTo_planned {folderId folderId' : WriteFolderId} {progress progress' : FolderProgress}
    {bump : Bool} (hnext : nextFolderIf bump folderId progress = .ok (folderId', progress')) :
    Meets (fun w => ∃ folders, Planned prepared folderId progress w folders)
      (advanceTo outside folderId')
      (fun _ w => ∃ folders, Planned prepared folderId' progress' w folders) fun _ _ => True := by
  apply Meets.of_ok
  rintro w _ w' ⟨folders, hplanned⟩ h
  rw [advanceTo, bind_of_ok (nextFolderId_stands hplanned.stands)] at h
  cases bump with
  | false =>
    cases hnext
    rw [hplanned.number, if_neg (Nat.lt_irrefl _), if_pos rfl] at h
    cases h
    exact ⟨folders, hplanned⟩
  | true =>
    obtain ⟨folderId'', hstep, hnext⟩ := except_bind_eq_ok.mp hnext
    cases hnext
    have hbump : folderId' = folderId + 1 := by
      unfold WriteFolderId.next at hstep
      split at hstep
      · exact (Except.ok.inj hstep).symm
      · cases hstep
    have hlt : folders.complete.length < folderId' := by
      rw [hplanned.number, hbump]
      exact Nat.lt_succ_self _
    rw [if_neg (Nat.lt_asymm hlt), if_neg (Nat.ne_of_gt hlt)] at h
    obtain ⟨_, w₁, hseal, h⟩ := bind_eq_ok.mp h
    have hw₁ := sealStreamingFolder_stands.ok hplanned.stands hseal
    rw [bind_of_ok (nextFolderId_stands hw₁)] at h
    split at h
    · cases h
    · next hnumber =>
      cases h
      refine ⟨folders.completed, hw₁, (not_not.mp hnumber).symm, hplanned.completed,
        FolderProgress.default_tallies, ?_⟩
      intro sizes hnone
      cases hnone

theorem writePlannedEntry_planned {folderId folderId' : WriteFolderId}
    {progress progress' : FolderProgress} {entry : WriteEntry}
    (hplan : planFolder prepared.solid folderId progress entry = .ok (folderId', progress'))
    (sizes : WriteFolderId → UInt64) :
    Meets (fun w => ∃ folders, Planned prepared folderId progress w folders)
      (writePlannedEntry outside sizes { entry with folderId := folderId' })
      (fun _ w => ∃ folders, Planned prepared folderId' progress' w folders) fun _ _ => True := by
  unfold planFolder at hplan
  cases hstream : entry.stream with
  | Streaming =>
    rw [hstream] at hplan
    obtain ⟨_, hsize, _⟩ := except_bind_eq_ok.mp hplan
    unfold bufferedSize at hsize
    rw [hstream] at hsize
    cases hsize
  | Empty =>
    rw [hstream] at hplan
    refine (advanceTo_planned hplan).bind fun _ => ?_
    unfold appendBuilderEntry
    dsimp only
    apply Meets.of_ok
    rintro w _ w' ⟨folders, hplanned⟩ h
    obtain ⟨_, w₁, hexternal, h⟩ := bind_eq_ok.mp h
    obtain ⟨_, w₂, hid, h⟩ := bind_eq_ok.mp h
    cases h
    have hw₁ := (stands_kept external_keeps).ok hplanned.stands hexternal
    have hw₂ := (stands_kept nextFolderId_keeps).ok hw₁ hid
    exact ⟨folders, { hplanned with stands := hw₂ }⟩
  | Buffered data =>
    rw [hstream] at hplan
    obtain ⟨size, hsize, hplan⟩ := except_bind_eq_ok.mp hplan
    obtain ⟨exceeds, hexceeds, hplan⟩ := except_bind_eq_ok.mp hplan
    obtain ⟨⟨folderId₁, progress₁⟩, hnext, hplan⟩ := except_bind_eq_ok.mp hplan
    obtain ⟨progress₂, hrecord, hplan⟩ := except_bind_eq_ok.mp hplan
    cases hplan
    have hdata : size = UInt64.ofNat data.length := by
      unfold bufferedSize at hsize
      rw [hstream] at hsize
      exact (Except.ok.inj hsize).symm
    -- either the test let the file in, or a new folder was begun for it
    have hfits : progress₁.wouldExceed prepared.solid size = .ok false ∨
        progress₁ = FolderProgress.default := by
      cases exceeds with
      | false =>
        cases hnext
        exact .inl hexceeds
      | true =>
        obtain ⟨_, _, hnext⟩ := except_bind_eq_ok.mp hnext
        cases hnext
        exact .inr rfl
    refine (advanceTo_planned hnext).bind fun _ => ?_
    unfold appendBuilderEntry
    dsimp only
    apply Meets.of_ok
    rintro w _ w' ⟨folders, hplanned⟩ h
    obtain ⟨_, _, hget, h⟩ := bind_eq_ok.mp h
    cases hget
    obtain ⟨⟨before, progress₀⟩, hopened⟩ : ∃ current, folders.opened.current = some current := ⟨_, rfl⟩
    have hbefore : (folders.current.map Prod.fst).getD [] = before := by
      cases hcurrent : folders.current with
      | none | some =>
        rw [Folders.opened, hcurrent] at hopened
        cases hopened
        rfl
    have htallies := hplanned.tallies
    rw [hbefore] at htallies
    have hw' := (appendStreaming_preplanned hopened _ _ _ _).ok hplanned.stands h
    rw [readerSize_slice, ← hdata] at hw'
    refine ⟨_, hw', hplanned.number, hplanned.complete, htallies.record hrecord, ?_⟩
    intro after hafter
    cases hafter
    rcases hfits with hfits | rfl
    · exact htallies.within hfits True
    · cases htallies.eq_nil (by decide)
      exact prepared.solid.within_one True size

theorem writePlannedEntries_planned (sizes : WriteFolderId → UInt64)
    {entries before after : List WriteEntry}
    (hplan : planFolders prepared.solid 0 FolderProgress.default entries = .ok (before ++ after)) :
    Meets (fun w => ∃ folders, Planned prepared 0 FolderProgress.default w folders)
      (forEach (writePlannedEntry outside sizes) before)
      (fun _ w => ∃ folderId progress rest,
        planFolders prepared.solid folderId progress rest = .ok after ∧
          ∃ folders, Planned prepared folderId progress w folders)
      fun _ _ => True := by
  have hloop := Meets.forEach (f := writePlannedEntry outside sizes) (E := fun _ _ => True)
    (I := fun left w => ∃ folderId progress rest,
      planFolders prepared.solid folderId progress rest = .ok (left ++ after) ∧
        ∃ folders, Planned prepared folderId progress w folders) before ?_
  · exact hloop.pre fun w hw => ⟨0, FolderProgress.default, entries, hplan, hw⟩
  intro entry left
  rintro w ⟨folderId, progress, rest, hplan, hw⟩
  cases rest with
  | nil => cases hplan
  | cons first rest =>
    obtain ⟨⟨folderId', progress'⟩, hfirst, hplan⟩ := except_bind_eq_ok.mp hplan
    obtain ⟨left', hrest, hplan⟩ := except_bind_eq_ok.mp hplan
    cases hplan
    refine (writePlannedEntry_planned hfirst sizes w hw).mono (fun _ w' hw' => ?_) fun _ _ h => h
    exact ⟨folderId', progress', rest, hrest, hw'⟩

theorem planned_new (prepared : PreparedArchiveOptions) (output : Sink) :
    Planned prepared 0 FolderProgress.default (ArchiveWriter.new output prepared) ⟨[], none⟩ :=
  ⟨rfl, rfl, by simp, FolderProgress.default_tallies, by simp⟩

end

/-! Staging -/

def declaredSizes (rows : List StagedEntry) (id : WriteFolderId) : List UInt64 :=
  (rows.filter fun row => decide (row.folderId = some id)).map stagedStreamSize

theorem declaredSizes_cons (row : StagedEntry) (rows : List StagedEntry) (id : WriteFolderId) :
    declaredSizes (row :: rows) id =
      (if row.folderId = some id then [stagedStreamSize row] else []) ++ declaredSizes rows id := by
  unfold declaredSizes
  rw [List.filter_cons]
  by_cases hid : row.folderId = some id
  · rw [if_pos (decide_eq_true hid), if_pos hid]
    rfl
  · rw [if_neg (by simpa using hid), if_neg hid]
    rfl

structure StagedDataFolders.Tallies (solid : SolidMode) (first : WriteFolderId)
    (folders : StagedDataFolders) (sofar : WriteFolderId → List UInt64) : Prop where
  within : ∀ id, first ≤ id → sofar id ≠ [] → solid.Within True (sofar id)
  current : ∀ id progress, folders.current = some (id, progress) →
    progress.Tallies (sofar id) ∧ first ≤ id ∧ id < folders.next
  fresh : ∀ id, folders.next ≤ id → sofar id = []
  next : first ≤ folders.next

namespace StagedDataFolders

variable {solid : SolidMode} {first : WriteFolderId} {folders folders' : StagedDataFolders}
  {sofar : WriteFolderId → List UInt64}

theorem Tallies.breakFolder (h : folders.Tallies solid first sofar) :
    folders.breakFolder.Tallies solid first sofar :=
  ⟨h.within, fun _ _ hnone => (nomatch hnone), h.fresh, h.next⟩

theorem Tallies.openFolder (h : folders.Tallies solid first sofar) {size : UInt64}
    {target : WriteFolderId} {progress : FolderProgress}
    (hopen : folders.openFolder solid size = .ok (folders', target, progress)) :
    folders'.Tallies solid first sofar ∧ folders'.current = some (target, progress) ∧
      solid.Within True (sofar target ++ [size]) := by
  have hfresh : ∀ {opened : StagedDataFolders × WriteFolderId × FolderProgress},
      (do
        let next ← WriteFolderId.next folders.next
        return ({ next, current := some (folders.next, FolderProgress.default) }, folders.next,
          FolderProgress.default) : Except R7zError _) = .ok opened →
        opened.1.Tallies solid first sofar ∧ opened.1.current = some opened.2 ∧
          solid.Within True (sofar opened.2.1 ++ [size]) := by
    intro opened hopened
    obtain ⟨next, hnext, hopened⟩ := except_bind_eq_ok.mp hopened
    cases hopened
    unfold WriteFolderId.next at hnext
    split at hnext
    · cases hnext
      have hempty := h.fresh folders.next (Nat.le_refl _)
      refine ⟨⟨h.within, ?_, ?_, h.next.trans (Nat.le_succ _)⟩, rfl, ?_⟩
      · intro id progress heq
        cases heq
        rw [hempty]
        exact ⟨FolderProgress.default_tallies, h.next, Nat.lt_succ_self _⟩
      · exact fun id hid => h.fresh id ((Nat.le_succ _).trans hid)
      · dsimp only
        rw [hempty]
        exact solid.within_one True size
    · cases hnext
  unfold StagedDataFolders.openFolder at hopen
  cases hcurrent : folders.current with
  | none =>
    rw [hcurrent] at hopen
    exact hfresh hopen
  | some current =>
    obtain ⟨id, progress'⟩ := current
    rw [hcurrent] at hopen
    obtain ⟨exceeds, hexceeds, hopen⟩ := except_bind_eq_ok.mp hopen
    cases exceeds with
    | true => exact hfresh hopen
    | false =>
      cases hopen
      exact ⟨h, hcurrent, (h.current _ _ hcurrent).1.within hexceeds True⟩

theorem Tallies.assign (h : folders.Tallies solid first sofar) {size : UInt64} {target : WriteFolderId}
    (hassign : folders.assign solid size = .ok (folders', target)) :
    folders'.Tallies solid first fun id => sofar id ++ if some target = some id then [size] else [] := by
  obtain ⟨⟨opened, target', progress⟩, hopen, hassign⟩ := except_bind_eq_ok.mp hassign
  obtain ⟨progress', hrecord, hassign⟩ := except_bind_eq_ok.mp hassign
  cases hassign
  obtain ⟨hopened, hcurrent, hwithin⟩ := h.openFolder hopen
  obtain ⟨htallies, hle, hlt⟩ := hopened.current _ _ hcurrent
  refine ⟨fun id hid hne => ?_, fun id progress heq => ?_, fun id hid => ?_, hopened.next⟩
  · by_cases htarget : target = id
    · subst htarget
      rw [if_pos rfl]
      exact hwithin
    · have hother : ¬some target = some id := fun heq => htarget (Option.some.inj heq)
      rw [if_neg hother, List.append_nil] at hne ⊢
      exact hopened.within id hid hne
  · cases heq
    rw [if_pos rfl]
    exact ⟨htallies.record hrecord, hle, hlt⟩
  · have hother : ¬some target = some id := fun heq =>
      absurd (Option.some.inj heq ▸ hlt) (Nat.not_lt.mpr hid)
    rw [if_neg hother, List.append_nil]
    exact hopened.fresh id hid

end StagedDataFolders

section
variable {rawFolders : List RawFolderBlock} {solid : SolidMode}

theorem stageStream_tallies {folders folders' : StagedDataFolders}
    {sofar : WriteFolderId → List UInt64}
    {entry : PreservedArchiveEntry} (row : StagedEntry)
    (h : folders.Tallies solid (maxRawFolder rawFolders + 1) sofar)
    (hstage : stageStream rawFolders solid folders entry.stream = .ok (folders', row.stream)) :
    folders'.Tallies solid (maxRawFolder rawFolders + 1) fun id =>
      sofar id ++ if row.folderId = some id then [stagedStreamSize row] else [] := by
  -- a row that takes no new folder adds nothing to those that are planned
  have hsame : ∀ {folders' : StagedDataFolders}, folders'.Tallies solid (maxRawFolder rawFolders + 1) sofar →
      (∀ id, maxRawFolder rawFolders + 1 ≤ id → row.folderId ≠ some id) →
      folders'.Tallies solid (maxRawFolder rawFolders + 1) fun id =>
        sofar id ++ if row.folderId = some id then [stagedStreamSize row] else [] := by
    intro folders' h hbelow
    have heq : ∀ id, maxRawFolder rawFolders + 1 ≤ id →
        (sofar id ++ if row.folderId = some id then [stagedStreamSize row] else []) = sofar id := by
      intro id hid
      rw [if_neg (hbelow id hid), List.append_nil]
    refine ⟨fun id hid hne => ?_, fun id progress hcurrent => ?_, fun id hid => ?_, h.next⟩
    · rw [heq id hid] at hne ⊢
      exact h.within id hid hne
    · rw [heq id (h.current id progress hcurrent).2.1]
      exact h.current id progress hcurrent
    · rw [heq id (h.next.trans hid)]
      exact h.fresh id hid
  unfold stageStream at hstage
  unfold StagedEntry.folderId stagedStreamSize at hsame ⊢
  cases hstream : entry.stream with
  | None =>
    rw [hstream] at hstage
    obtain ⟨rfl, hrow⟩ := Prod.mk.inj (Except.ok.inj hstage)
    rw [← hrow] at hsame ⊢
    exact hsame h fun _ _ hnone => nomatch hnone
  | Raw folder sourceEntry size crc =>
    rw [hstream] at hstage
    dsimp only at hstage
    split at hstage
    · cases hstage
    · next hall =>
      obtain ⟨rfl, hrow⟩ := Prod.mk.inj (Except.ok.inj hstage)
      rw [← hrow] at hsame ⊢
      refine hsame h.breakFolder fun id hid heq => ?_
      cases heq
      cases hraw : rawById rawFolders folder.index with
      | none => simp [hraw] at hall
      | some raw =>
        obtain ⟨hmem, hindex⟩ := rawById_spec hraw
        exact absurd (hindex ▸ le_maxRawFolder hmem) (Nat.not_le.mpr hid)
  | Data data =>
    rw [hstream] at hstage
    obtain ⟨⟨assigned, target⟩, hassign, hstage⟩ := except_bind_eq_ok.mp hstage
    obtain ⟨rfl, hrow⟩ := Prod.mk.inj (Except.ok.inj hstage)
    rw [← hrow]
    exact h.assign hassign
  | Path file size =>
    rw [hstream] at hstage
    obtain ⟨⟨assigned, target⟩, hassign, hstage⟩ := except_bind_eq_ok.mp hstage
    obtain ⟨rfl, hrow⟩ := Prod.mk.inj (Except.ok.inj hstage)
    rw [← hrow]
    exact h.assign hassign

theorem stageEntries_within : ∀ {entries : List PreservedArchiveEntry} {folders : StagedDataFolders}
    {sofar : WriteFolderId → List UInt64} {staged : List StagedEntry},
    folders.Tallies solid (maxRawFolder rawFolders + 1) sofar →
      stageEntries rawFolders solid folders entries = .ok staged →
        ∀ id, maxRawFolder rawFolders + 1 ≤ id → sofar id ++ declaredSizes staged id ≠ [] →
          solid.Within True (sofar id ++ declaredSizes staged id)
  | [], _, sofar, _, h, hstage => by
    cases hstage
    intro id hid hne
    rw [declaredSizes, List.filter_nil, List.map_nil, List.append_nil] at hne ⊢
    exact h.within id hid hne
  | entry :: entries, folders, sofar, staged, h, hstage => by
    obtain ⟨⟨folders', stream⟩, hstream, hstage⟩ := except_bind_eq_ok.mp hstage
    obtain ⟨rest, hrest, hstage⟩ := except_bind_eq_ok.mp hstage
    cases hstage
    intro id hid hne
    rw [declaredSizes_cons, ← List.append_assoc] at hne ⊢
    exact stageEntries_within (stageStream_tallies _ h hstream) hrest id hid hne

/-! Writing -/

theorem filter_range_bind {α β : Type} [DecidableEq β] (f : α → Option β) (b : β) (l : List α) :
    ((List.range l.length).filter fun i => decide ((l[i]?).bind f = some b)).map (l[·]?) =
      (l.filter fun a => decide (f a = some b)).map some := by
  induction l using List.reverseRecOn with
  | nil => rfl
  | append_singleton l a ih =>
    have hbefore : ∀ i ∈ List.range l.length, (l ++ [a])[i]? = l[i]? := by
      intro i hi
      exact List.getElem?_append_left (List.mem_range.mp hi)
    have hfilter : ((List.range l.length).filter fun i => decide (((l ++ [a])[i]?).bind f = some b)) =
        (List.range l.length).filter fun i => decide ((l[i]?).bind f = some b) := by
      apply List.filter_congr
      intro i hi
      rw [hbefore i hi]
    have hlast : (l ++ [a])[l.length]? = some a := List.getElem?_concat_length
    rw [List.length_append, List.length_singleton, List.range_succ, List.filter_append, List.map_append,
      hfilter, List.filter_append, List.map_append, ← ih]
    congr 1
    · apply List.map_congr_left
      intro i hi
      exact hbefore i (List.mem_of_mem_filter hi)
    · rw [List.filter_singleton, List.filter_singleton, hlast, Option.bind_some]
      cases decide (f a = some b) with
      | false => rfl
      | true => exact congrArg (fun o => [o]) hlast

variable {outside : Outside} {prepared : PreparedArchiveOptions}

theorem stagedDataEntries_rows {entries : List StagedEntry} : ∀ {indices : List WriteEntryIndex}
    {rows : List StagedEntry}
    {data : List (UInt64 × WriteEntryIndex × Except R7zError Reader)},
    indices.map (entries[·]?) = rows.map some →
      indices.mapM (stagedDataEntry prepared entries) = .ok data →
        List.Forall₂ (fun row d => stagedReader prepared row = .ok (d.1, d.2.2)) rows data
  | [], rows, data, hrows, hdata => by
    cases hdata
    cases rows with
    | nil => exact .nil
    | cons row rows => cases hrows
  | index :: indices, rows, data, hrows, hdata => by
    cases rows with
    | nil => cases hrows
    | cons row rows =>
      obtain ⟨hrow, hrows⟩ := List.cons.inj hrows
      rw [List.mapM_cons] at hdata
      obtain ⟨first, hfirst, hdata⟩ := except_bind_eq_ok.mp hdata
      obtain ⟨rest, hrest, hdata⟩ := except_bind_eq_ok.mp hdata
      cases hdata
      refine .cons ?_ (stagedDataEntries_rows hrows hrest)
      unfold stagedDataEntry at hfirst
      rw [show entries[index]? = some row from hrow] at hfirst
      obtain ⟨⟨size, reader⟩, hreader, hfirst⟩ := except_bind_eq_ok.mp hfirst
      cases hfirst
      exact hreader

theorem writeStagedReader_size : ∀ {reader : Reader} {folder folder' : StreamingFolder}
    {seen : List UInt8} {size size' : UInt64} {checksum : UInt32} {w w' : ArchiveWriter},
    writeStagedReader outside prepared reader folder seen size w = (.ok (folder', size', checksum), w') →
      folder'.sizes = folder.sizes ∧ size' = size + UInt64.ofNat (readerSize reader)
  | [], folder, folder', seen, size, size', checksum, w, w', h => by
    obtain ⟨_, _, _, h⟩ := bind_eq_ok.mp h
    cases h
    exact ⟨rfl, (UInt64.add_zero _).symm⟩
  | first :: reader, folder, folder', seen, size, size', checksum, w, w', h => by
    obtain ⟨chunk, w₁, hread, h⟩ := bind_eq_ok.mp h
    rw [readerSize_read hread, List.tail_cons]
    split at h
    · next hempty =>
      cases h
      rw [if_pos hempty]
      exact ⟨rfl, (UInt64.add_zero _).symm⟩
    · next hdata =>
      obtain ⟨written, w₂, hwrite, h⟩ := bind_eq_ok.mp h
      obtain ⟨total, w₃, hsize, h⟩ := bind_eq_ok.mp h
      obtain ⟨hsizes, hsum⟩ := writeStagedReader_size h
      have htotal : total = size + UInt64.ofNat chunk.length :=
        checkedAdd_eq_ok (Prod.mk.inj hsize).1
      rw [if_neg hdata, UInt64.ofNat_add, ← UInt64.add_assoc, ← htotal]
      exact ⟨hsizes.trans (write_sizes hwrite), hsum⟩

theorem writeStagedEntries_sizes : ∀ {files : List (WriteEntryIndex × Except R7zError Reader)}
    {folder folder' : StreamingFolder} {w w' : ArchiveWriter},
    writeStagedEntries outside prepared files folder w = (.ok folder', w') →
      ∃ written, folder'.sizes = folder.sizes ++ written ∧
        List.Forall₂ (fun file size => ∃ reader, file.2 = .ok reader ∧
          size = UInt64.ofNat (readerSize reader)) files written
  | [], folder, folder', w, w', h => by
    cases h
    exact ⟨[], (List.append_nil _).symm, .nil⟩
  | (index, file) :: files, folder, folder', w, w', h => by
    obtain ⟨reader, w₁, hfile, h⟩ := bind_eq_ok.mp h
    obtain ⟨⟨written, size, checksum⟩, w₂, hreader, h⟩ := bind_eq_ok.mp h
    obtain ⟨recorded, w₃, hrecord, h⟩ := bind_eq_ok.mp h
    obtain ⟨rest, hsizes, hrest⟩ := writeStagedEntries_sizes h
    obtain ⟨hsame, hsize⟩ := writeStagedReader_size hreader
    rw [UInt64.zero_add] at hsize
    rw [recordStream_sizes (Prod.mk.inj hrecord).1, hsame, List.append_assoc] at hsizes
    exact ⟨size :: rest, hsizes, .cons ⟨reader, (Prod.mk.inj hfile).1, hsize⟩ hrest⟩

theorem forall₂_join {α β γ : Type} {R : α → β → Prop} {S : β → γ → Prop} {T : α → γ → Prop}
    (hjoin : ∀ a b c, R a b → S b c → T a c) {as : List α} {bs : List β} {cs : List γ}
    (h : List.Forall₂ R as bs) (h' : List.Forall₂ S bs cs) : List.Forall₂ T as cs := by
  induction h generalizing cs with
  | nil =>
    cases h'
    exact .nil
  | cons hfirst _ ih =>
    cases h' with
    | cons hfirst' hrest' => exact .cons (hjoin _ _ _ hfirst hfirst') (ih hrest')

theorem encodedFolder_sizes {entries : List StagedEntry} {id : WriteFolderId}
    {folder : CompletedFolder} {w w' : ArchiveWriter}
    (h : writeEncodedFolderStreaming outside prepared entries (folderFileIndices entries id) w =
      (.ok folder, w')) :
    List.Forall₂ (fun row size => ∃ declared reader,
        stagedReader prepared row = .ok (declared, .ok reader) ∧
          size = UInt64.ofNat (readerSize reader))
      (entries.filter fun row => decide (row.folderId = some id)) folder.fileSizes := by
  obtain ⟨data, w₁, hdata, h⟩ := bind_eq_ok.mp h
  obtain ⟨_, w₂, _, h⟩ := bind_eq_ok.mp h
  obtain ⟨opened, w₃, hopened, h⟩ := bind_eq_ok.mp h
  obtain ⟨filled, w₄, hfilled, h⟩ := bind_eq_ok.mp h
  obtain ⟨written, hsizes, hwritten⟩ := writeStagedEntries_sizes hfilled
  have hrows := stagedDataEntries_rows (filter_range_bind StagedEntry.folderId id entries)
    (Prod.mk.inj hdata).1
  rw [encoded_sizes hopened, List.nil_append, ← (complete_files h).2] at hsizes
  rw [List.forall₂_map_left_iff] at hwritten
  rw [hsizes]
  refine forall₂_join (fun row d size hrow hsize => ?_) hrows hwritten
  obtain ⟨reader, hreader, hsize⟩ := hsize
  exact ⟨d.1, reader, by rw [hrow, hreader], hsize⟩

def deliveredSize (row : StagedEntry) : UInt64 :=
  match row.stream with
  | .Folder _ (.Data data) => UInt64.ofNat data.length
  | .Folder _ (.Path (.ok reader) _) => UInt64.ofNat (readerSize reader)
  | _ => 0

def deliveredSizes (rows : List StagedEntry) (id : WriteFolderId) : List UInt64 :=
  (rows.filter fun row => decide (row.folderId = some id)).map deliveredSize

theorem stagedReader_delivered {row : StagedEntry} {declared : UInt64} {reader : Reader}
    (h : stagedReader prepared row = .ok (declared, .ok reader)) :
    UInt64.ofNat (readerSize reader) = deliveredSize row := by
  unfold stagedReader at h
  unfold deliveredSize
  split at h
  · next hstream =>
    cases h
    rw [hstream, readerSize_slice]
  · next hstream =>
    cases h
    rw [hstream]
  · cases h

theorem encodedFolder_delivered {entries : List StagedEntry} {id : WriteFolderId}
    {folder : CompletedFolder} {w w' : ArchiveWriter}
    (h : writeEncodedFolderStreaming outside prepared entries (folderFileIndices entries id) w =
      (.ok folder, w')) : folder.fileSizes = deliveredSizes entries id := by
  have hsizes : List.Forall₂ (fun row size => deliveredSize row = size)
      (entries.filter fun row => decide (row.folderId = some id)) folder.fileSizes := by
    refine (encodedFolder_sizes h).imp fun row size hrow => ?_
    obtain ⟨declared, reader, hreader, rfl⟩ := hrow
    exact (stagedReader_delivered hreader).symm
  rw [← List.forall₂_map_left_iff, List.forall₂_eq_eq_eq] at hsizes
  exact hsizes.symm

/-- Every file of the update is at most as long as its row says. -/
def PathsDeliver (entries : List PreservedArchiveEntry) : Prop :=
  ∀ entry ∈ entries, ∀ reader size, entry.stream = .Path (.ok reader) size →
    readerSize reader ≤ size.toNat

theorem stagedReader_le {entry : PreservedArchiveEntry} {row : StagedEntry} {first : WriteFolderId}
    (hstages : Stages rawFolders first entry row) {declared : UInt64} {reader : Reader}
    (hreader : stagedReader prepared row = .ok (declared, .ok reader))
    (hdeliver : ∀ reader size, entry.stream = .Path (.ok reader) size → readerSize reader ≤ size.toNat) :
    (UInt64.ofNat (readerSize reader)).toNat ≤ (stagedStreamSize row).toNat := by
  have hstream := hstages.stream
  unfold stagedReader at hreader
  unfold stagedStreamSize
  generalize entry.stream = stream at hstream hdeliver
  generalize row.stream = staged at hstream hreader
  cases hstream with
  | none => cases hreader
  | raw => cases hreader
  | @data data target _ =>
    cases hreader
    rw [readerSize_slice]
  | @path file size target _ =>
    cases hreader
    exact (Nat.mod_le _ _).trans (hdeliver _ _ rfl)

theorem totalSize_le {sizes sizes' : List UInt64}
    (h : List.Forall₂ (fun declared size : UInt64 => size.toNat ≤ declared.toNat) sizes sizes') :
    totalSize sizes' ≤ totalSize sizes := by
  induction h with
  | nil => rfl
  | cons hsize _ ih =>
    unfold totalSize at ih ⊢
    rw [List.map_cons, List.map_cons, List.sum_cons, List.sum_cons]
    exact Nat.add_le_add hsize ih

theorem SolidMode.Within.of_le {sizes sizes' : List UInt64} {q : Prop}
    (h : solid.Within True sizes) (hlength : sizes'.length = sizes.length)
    (hbytes : q → totalSize sizes' ≤ totalSize sizes) : solid.Within q sizes' := by
  constructor
  · have hfiles := h.files
    cases solid with
    | Solid => trivial
    | NonSolid => exact hlength.trans hfiles
    | Limit maxFiles maxBytes =>
      intro hmany
      rw [hlength] at hmany ⊢
      exact hfiles hmany
  · intro hq
    have hwithin := h.bytes trivial
    cases solid with
    | Solid | NonSolid => trivial
    | Limit maxFiles maxBytes =>
      intro hmany limit hlimit
      rw [hlength] at hmany
      exact (hbytes hq).trans (hwithin hmany limit hlimit)

theorem mem_folderOrder {ids : List WriteFolderId} {id : WriteFolderId} :
    id ∈ folderOrder ids ↔ id ∈ ids := by
  unfold folderOrder
  suffices h : ∀ order, id ∈ ids.foldl
      (fun order id => if id ∈ order then order else order ++ [id]) order ↔ id ∈ order ∨ id ∈ ids by
    rw [h []]
    exact or_iff_right List.not_mem_nil
  induction ids with
  | nil => simp
  | cons first ids ih =>
    intro order
    rw [List.foldl_cons, ih, List.mem_cons]
    split
    · next hmem =>
      constructor
      · rintro (h | h)
        · exact .inl h
        · exact .inr (.inr h)
      · rintro (h | rfl | h)
        · exact .inl h
        · exact .inl hmem
        · exact .inr h
    · rw [List.mem_append, List.mem_singleton, or_assoc]

theorem stagedFolder_within {entries : List PreservedArchiveEntry} {staged : StagedPreserved}
    (hstaged : stagePreservedEntries entries rawFolders prepared.solid = .ok staged)
    {id : WriteFolderId} (hid : id ∈ staged.folderOrder) (hraw : rawById rawFolders id = none)
    {folder : CompletedFolder} {w w' : ArchiveWriter}
    (h : writeStagedFolder outside prepared rawFolders staged.entries id w = (.ok folder, w')) :
    prepared.solid.Within (PathsDeliver entries) folder.fileSizes := by
  obtain ⟨hstages, _, horder⟩ := stagePreservedEntries_spec hstaged
  unfold writeStagedFolder at h
  rw [hraw] at h
  have hsizes := encodedFolder_sizes h
  rw [horder, mem_folderOrder, List.mem_filterMap] at hid
  obtain ⟨row, hrow, hfolder⟩ := hid
  -- a folder that is no copy has a number behind those of the copies
  have hfirst : maxRawFolder rawFolders + 1 ≤ id := by
    obtain ⟨entry, _, hentry⟩ := exists_related hstages.flip hrow
    have hstream := hentry.stream
    unfold StagedEntry.folderId at hfolder
    generalize entry.stream = source at hstream
    generalize row.stream = stream at hstream hfolder
    cases hstream with
    | none => cases hfolder
    | raw hcopied =>
      cases hfolder
      cases hraw.symm.trans hcopied
    | data htarget =>
      cases hfolder
      exact htarget
    | path htarget =>
      cases hfolder
      exact htarget
  -- by the walk over the rows, from a start where no folder has any
  have hwithin : prepared.solid.Within True (declaredSizes staged.entries id) := by
    obtain ⟨next, hnext, hstaged⟩ := except_bind_eq_ok.mp hstaged
    have hnext : next = maxRawFolder rawFolders + 1 := by
      unfold WriteFolderId.next at hnext
      split at hnext
      · exact (Except.ok.inj hnext).symm
      · cases hnext
    subst hnext
    obtain ⟨rows, hrows, hstaged⟩ := except_bind_eq_ok.mp hstaged
    dsimp only at hstaged
    split at hstaged
    · cases hstaged
      have hnew : (StagedDataFolders.new (maxRawFolder rawFolders + 1)).Tallies prepared.solid
          (maxRawFolder rawFolders + 1) fun _ => [] :=
        ⟨fun _ _ h => absurd rfl h, (by intro _ _ h; cases h), fun _ _ => rfl, Nat.le_refl _⟩
      refine stageEntries_within hnew hrows id hfirst ?_
      intro hnil
      rw [List.nil_append, declaredSizes, List.map_eq_nil_iff, List.filter_eq_nil_iff] at hnil
      exact hnil row hrow (decide_eq_true hfolder)
    · cases hstaged
  refine hwithin.of_le ?_ fun hdeliver => ?_
  · rw [declaredSizes, List.length_map]
    exact hsizes.length_eq.symm
  · refine totalSize_le ?_
    rw [declaredSizes, List.forall₂_map_left_iff, List.forall₂_iff_zip]
    refine ⟨hsizes.length_eq, fun hpair => ?_⟩
    obtain ⟨declared, reader, hreader, rfl⟩ := List.forall₂_zip hsizes hpair
    have hmem := List.mem_of_mem_filter (List.of_mem_zip hpair).1
    obtain ⟨entry, hentry, hstages⟩ := exists_related hstages.flip hmem
    exact stagedReader_le hstages hreader (hdeliver entry hentry)

theorem stagedFolder_delivered {entries : List StagedEntry} {id : WriteFolderId}
    (hraw : rawById rawFolders id = none) {folder : CompletedFolder} {w w' : ArchiveWriter}
    (h : writeStagedFolder outside prepared rawFolders entries id w = (.ok folder, w')) :
    folder.fileSizes = deliveredSizes entries id := by
  unfold writeStagedFolder at h
  rw [hraw] at h
  exact encodedFolder_delivered h

theorem writeStagedFolders_each {entries : List StagedEntry} : ∀ {ids : List WriteFolderId}
    {written : List CompletedFolder} {w w' : ArchiveWriter},
    writeStagedFolders outside prepared rawFolders entries ids w = (.ok written, w') →
      List.Forall₂ (fun id folder => ∃ w w',
        writeStagedFolder outside prepared rawFolders entries id w = (.ok folder, w')) ids written
  | [], written, w, w', h => by
    cases h
    exact .nil
  | id :: ids, written, w, w', h => by
    obtain ⟨folder, w₁, hfolder, h⟩ := bind_eq_ok.mp h
    obtain ⟨folders, w₂, hrest, h⟩ := bind_eq_ok.mp h
    cases h
    exact .cons ⟨_, _, hfolder⟩ (writeStagedFolders_each hrest)

def updatedFolders (outside : Outside) (options : Except R7zError PreparedArchiveOptions)
    (entries : List PreservedArchiveEntry) (rawFolders : List RawFolderBlock) :
    WriterM (List CompletedFolder) := do
  let prepared ← ofExcept options
  external outside
  forEach (reserveRetained outside) entries
  let staged ← ofExcept (stagePreservedEntries entries rawFolders prepared.solid)
  seek outside 0
  writeAll outside (List.replicate 32 0)
  writeStagedFolders outside prepared rawFolders staged.entries staged.folderOrder

theorem external_output : Keeps ArchiveWriter.output (external outside) := external_still fun _ _ => rfl

/-- The steps of an update that goes well: the file is untouched up to the first seek, and again between the folders
and the header. -/
theorem update_steps {options : Except R7zError PreparedArchiveOptions} {entries : List PreservedArchiveEntry}
    {w w' : ArchiveWriter} (h : writePreservedArchive outside options entries rawFolders w = (.ok (), w')) :
    ∃ prepared staged folders size, ∃ opened placed started written closed : ArchiveWriter, options = .ok prepared ∧
      stagePreservedEntries entries rawFolders prepared.solid = .ok staged ∧
      (updatedFolders outside options entries rawFolders w).1 = .ok folders ∧ opened.output = w.output ∧
      seek outside 0 opened = (.ok (), placed) ∧ writeAll outside (List.replicate 32 0) placed = (.ok (), started) ∧
      writeStagedFolders outside prepared rawFolders staged.entries staged.folderOrder started = (.ok folders, written) ∧
      closed.output = written.output ∧ packedSize folders = .ok size ∧
      writeNextHeader outside (buildHeader (staged.entries.map StagedEntry.intoWriteEntry) folders) size
        (staged.entries.map StagedEntry.intoWriteEntry).length prepared closed = (.ok (), w') := by
  obtain ⟨prepared, w₁, hoptions, h⟩ := bind_eq_ok.mp h
  obtain ⟨_, w₂, hexternal, h⟩ := bind_eq_ok.mp h
  obtain ⟨_, w₃, hreserve, h⟩ := bind_eq_ok.mp h
  obtain ⟨staged, w₄, hstaged, h⟩ := bind_eq_ok.mp h
  obtain ⟨_, w₅, hseek, h⟩ := bind_eq_ok.mp h
  obtain ⟨_, w₆, hzeros, h⟩ := bind_eq_ok.mp h
  obtain ⟨folders, w₇, hfolders, h⟩ := bind_eq_ok.mp h
  obtain ⟨_, w₈, hcheck, h⟩ := bind_eq_ok.mp h
  obtain ⟨size, w₉, hsize, hwrote⟩ := bind_eq_ok.mp h
  have hupdated : updatedFolders outside options entries rawFolders w = (.ok folders, w₇) := by
    rw [updatedFolders, bind_of_ok hoptions, bind_of_ok hexternal, bind_of_ok hreserve,
      bind_of_ok hstaged, bind_of_ok hseek, bind_of_ok hzeros, hfolders]
  obtain ⟨hprepared, rfl⟩ := Prod.mk.inj hoptions
  obtain ⟨hrows, rfl⟩ := Prod.mk.inj hstaged
  obtain ⟨hpacked, rfl⟩ := Prod.mk.inj hsize
  have hkept : Keeps ArchiveWriter.output (forEach (reserveRetained outside) entries) :=
    Keeps.forEach (fun entry => by
      unfold reserveRetained
      cases entry.stream with
      | Data => exact external_output
      | None | Path | Raw => exact Keeps.pure _) entries
  exact ⟨prepared, staged, folders, size, w₃, w₅, w₆, w₇, w₈, hprepared, hrows, congrArg Prod.fst hupdated,
    (hkept.ok hreserve).trans (external_output.ok hexternal), hseek, hzeros, hfolders, external_output.ok hcheck,
    hpacked, hwrote⟩

/-- Every folder of an update that is no copy has the files that its rows deliver, as many as are
planned; and no more bytes where no file is longer than its row says. -/
theorem update_within {options : Except R7zError PreparedArchiveOptions}
    {entries : List PreservedArchiveEntry} {w w' : ArchiveWriter}
    (h : writePreservedArchive outside options entries rawFolders w = (.ok (), w')) :
    ∃ prepared staged written, options = .ok prepared ∧
      stagePreservedEntries entries rawFolders prepared.solid = .ok staged ∧
      (updatedFolders outside options entries rawFolders w).1 = .ok written ∧
      WroteHeader outside (buildHeader (staged.entries.map StagedEntry.intoWriteEntry) written) w' ∧
      List.Forall₂ (fun id (folder : CompletedFolder) => rawById rawFolders id = none →
        folder.fileSizes = deliveredSizes staged.entries id ∧
          prepared.solid.Within (PathsDeliver entries) folder.fileSizes) staged.folderOrder written := by
  obtain ⟨prepared, staged, written, size, _, _, _, _, closed, hoptions, hstaged, hfolders, -, -, -, hwritten, -, -,
    hwrote⟩ := update_steps h
  refine ⟨prepared, staged, written, hoptions, hstaged, hfolders, ⟨size, _, _, closed, hwrote⟩, ?_⟩
  have heach := writeStagedFolders_each hwritten
  rw [List.forall₂_iff_zip] at heach ⊢
  refine ⟨heach.1, fun hpair hraw => ?_⟩
  obtain ⟨_, _, hfolder⟩ := heach.2 hpair
  exact ⟨stagedFolder_delivered hraw hfolder,
    stagedFolder_within hstaged (List.of_mem_zip hpair).1 hraw hfolder⟩

end

end Write

end R7z
