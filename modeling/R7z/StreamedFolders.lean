import R7z.FolderSizes

/-! The streaming writer: a folder is complete once it is full, so that its last file can be too long for
it. -/

namespace R7z

open Wire Effect Effect.Machine Write

namespace Write

/-! Between the calls of the streaming writer -/

structure Rests (solid : SolidMode) (sizes : List UInt64) (progress : FolderProgress) : Prop where
  tallies : progress.Tallies sizes
  files : sizes ≠ []
  room : progress.reachedLimit solid = false

namespace Rests

variable {solid : SolidMode} {sizes : List UInt64} {progress : FolderProgress}

theorem solid_ne (h : Rests solid sizes progress) : solid ≠ .NonSolid := by
  rintro rfl
  exact absurd (h.tallies.files_pos h.files) (of_decide_eq_false h.room)

theorem within (h : Rests solid sizes progress) (q : Prop) : solid.Within q sizes := by
  cases solid with
  | Solid => exact ⟨trivial, fun _ => trivial⟩
  | NonSolid => exact absurd rfl h.solid_ne
  | Limit maxFiles maxBytes =>
    obtain ⟨hfiles, hbytes⟩ := h.tallies.room 0 h.room
    refine ⟨fun _ limit hlimit => ?_, fun _ _ limit hlimit => (hbytes limit hlimit).le⟩
    have hroom := hfiles limit hlimit
    rw [List.length_append] at hroom
    exact (Nat.le_add_right _ _).trans hroom

theorem files_append (h : Rests solid sizes progress) (size : UInt64) :
    solid.FilesWithin (sizes ++ [size]) := by
  cases solid with
  | Solid => trivial
  | NonSolid => exact absurd rfl h.solid_ne
  | Limit maxFiles maxBytes => exact fun _ => (h.tallies.room size h.room).1

end Rests

theorem SolidMode.full_of_exceeds {solid : SolidMode} {sizes : List UInt64}
    (h : ¬solid.BytesWithin sizes) : solid.full sizes = true := by
  cases solid with
  | Solid | NonSolid => exact absurd trivial h
  | Limit maxFiles maxBytes =>
    unfold SolidMode.BytesWithin at h
    push Not at h
    obtain ⟨_, limit, hlimit, hlt⟩ := h
    rw [SolidMode.full, Bool.or_eq_true, Option.mem_def.mp hlimit]
    exact .inr (decide_eq_true hlt.le)

namespace Folders

def openSizes (folders : Folders) : List UInt64 := (folders.current.map Prod.fst).getD []

variable {solid : SolidMode} {folders folders' : Folders} {size : UInt64} {q : Prop}
  {base : List (List UInt64)}

/-- Every folder since `base` is within its limits, that of the bytes where `q` holds. -/
structure Kept (solid : SolidMode) (q : Prop) (base : List (List UInt64)) (folders : Folders) : Prop where
  complete : ∃ more, folders.complete = base ++ more ∧ ∀ sizes ∈ more, solid.Within q sizes
  current : ∀ sizes progress, folders.current = some (sizes, progress) → Rests solid sizes progress

theorem Kept.push {complete : List (List UInt64)} {sizes : List UInt64}
    (h : ∃ more, complete = base ++ more ∧ ∀ sizes ∈ more, solid.Within q sizes)
    (hsizes : solid.Within q sizes) :
    ∃ more, complete ++ [sizes] = base ++ more ∧ ∀ sizes ∈ more, solid.Within q sizes := by
  obtain ⟨more, rfl, hmore⟩ := h
  refine ⟨more ++ [sizes], List.append_assoc _ _ _, ?_⟩
  intro other hother
  rcases List.mem_append.mp hother with hother | hother
  · exact hmore other hother
  · rw [List.mem_singleton.mp hother]
    exact hsizes

theorem Kept.completed (h : folders.Kept solid q base) : folders.completed.Kept solid q base := by
  refine ⟨?_, fun _ _ hnone => nomatch hnone⟩
  rw [Folders.completed]
  cases hcurrent : folders.current with
  | none => simpa using h.complete
  | some current => exact Kept.push h.complete ((h.current _ _ hcurrent).within q)

theorem Kept.opened (h : folders.Kept solid q base) {sizes : List UInt64} {progress : FolderProgress}
    (hopened : folders.opened.current = some (sizes, progress)) (size : UInt64) :
    sizes = folders.openSizes ∧ progress.Tallies sizes ∧ solid.FilesWithin (sizes ++ [size]) := by
  cases hcurrent : folders.current with
  | none =>
    rw [Folders.opened, hcurrent] at hopened
    cases hopened
    rw [openSizes, hcurrent]
    exact ⟨rfl, FolderProgress.default_tallies, (solid.within_one True size).files⟩
  | some current =>
    rw [Folders.opened, hcurrent] at hopened
    cases hopened
    rw [openSizes, hcurrent]
    have hrests := h.current _ _ hcurrent
    exact ⟨rfl, hrests.tallies, hrests.files_append size⟩

theorem Appends.kept (h : Appends solid size folders folders') (hkept : folders.Kept solid q base)
    (hfits : q → solid.BytesWithin (folders.openSizes ++ [size])) :
    folders'.Kept solid q base ∧ folders'.openSizes =
      if solid.full (folders.openSizes ++ [size]) then [] else folders.openSizes ++ [size] := by
  obtain ⟨sizes, progress, progress', hopened, hrecord, rfl⟩ := h
  obtain ⟨rfl, htallies, hfiles⟩ := hkept.opened hopened size
  have htallies' := htallies.record hrecord
  rw [htallies'.full]
  split
  · exact ⟨⟨Kept.push hkept.complete ⟨hfiles, hfits⟩, fun _ _ hnone => nomatch hnone⟩, rfl⟩
  · next hroom =>
    refine ⟨⟨hkept.complete, ?_⟩, rfl⟩
    intro sizes' progress'' heq
    cases heq
    exact ⟨htallies', by simp, htallies'.full.trans (Bool.eq_false_iff.mpr hroom)⟩

theorem Appends.exceeds (h : Appends solid size folders folders') (hkept : folders.Kept solid q base)
    (hover : ¬solid.BytesWithin (folders.openSizes ++ [size])) :
    folders' = ⟨folders.complete ++ [folders.openSizes ++ [size]], none⟩ := by
  obtain ⟨sizes, progress, progress', hopened, hrecord, rfl⟩ := h
  obtain ⟨rfl, htallies, _⟩ := hkept.opened hopened size
  rw [(htallies.record hrecord).full, if_pos (SolidMode.full_of_exceeds hover)]

end Folders

/-! What the calls bring -/

/-- What a call brings to the folders: nothing, the end of the open one, or a file with this many
bytes. -/
inductive Brought where
  | Nothing
  | NewFolder
  | File (size : ℕ)

namespace Brought

/-- The sizes in the open folder afterwards. An empty file needs no folder. -/
def after (solid : SolidMode) (sizes : List UInt64) : Brought → List UInt64
  | Nothing => sizes
  | NewFolder => []
  | File size =>
    if size = 0 then sizes
    else if solid.full (sizes ++ [UInt64.ofNat size]) then [] else sizes ++ [UInt64.ofNat size]

/-- A file that is put behind these leaves the folder within the limit of the bytes. -/
def Fits (solid : SolidMode) (sizes : List UInt64) : Brought → Prop
  | Nothing => True
  | NewFolder => True
  | File size => size ≠ 0 → solid.BytesWithin (sizes ++ [UInt64.ofNat size])

end Brought

section
variable {outside : Outside} {prepared : PreparedArchiveOptions} {folders : Folders}

theorem sealStreamingFolder_failed :
    Meets (fun _ => True) (ArchiveWriter.sealStreamingFolder outside) (fun _ _ => True)
      fun _ => Failed := by
  apply Meets.get_bind
  intro w _
  have hkept {α : Type} {m : WriterM α} (h : Keeps ArchiveWriter.state m) :
      Meets Failed m (fun _ => Failed) fun _ => Failed := h.meets (· = .Failed)
  have hset (state : WriterState) : Meets (fun _ => True) (setState state)
      (fun _ w => w.state = state) fun _ => Failed := Meets.modify fun _ _ => rfl
  exact ((hset .Failed).bind fun _ => (hkept external_keeps).bind fun _ =>
    (hkept (completedFolders_keeps _ _)).bind fun completed => (hkept external_keeps).bind fun _ =>
      (hset (.Ready completed)).mono (fun _ _ => trivial) (fun _ _ _ => trivial) fun _ _ h => h) w trivial

theorem writerCall_refuses (call : WriterCall) : Refuses (call.run outside) := by
  cases call with
  | appendFile | append | appendEntry => exact appendFile_refuses _ _ _
  | appendEmptyEntry | appendEmptyFile | appendDirectory | appendAntiItem =>
    exact appendEmptyEntry_refuses _
  | appendArchiveEntry entry reader =>
    change Refuses (ArchiveWriter.appendArchiveEntry outside entry reader)
    unfold ArchiveWriter.appendArchiveEntry
    split
    · exact Meets.fail fun _ hw => hw
    · exact appendFile_refuses _ _ _
  | appendSymlink name target metadata =>
    exact Meets.get_bind fun w hw => appendFile_refuses _ _ _ w hw
  | newFolder => exact newFolder_refuses

theorem writerCall_failed (call : WriterCall) {w : ArchiveWriter} (hw : Failed w) :
    Failed (call.run outside w).2 := by
  have hrefuses := @writerCall_refuses outside call w hw
  rcases hrun : call.run outside w with ⟨e | _, w'⟩
  · rw [hrun] at hrefuses
    exact hrefuses
  · rw [hrun] at hrefuses
    exact hrefuses.elim

end

end Write

end R7z
