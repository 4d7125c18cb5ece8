import R7z.Update.Planner
import R7z.ListingRows

/-! What a plan does with each entry of the source: the passes over the rows and over the folders come to
one decision for each row. -/

namespace R7z

open Wire

namespace Write

/-- The decision about a row: a folder is copied when all of its entries are kept. -/
def decision (retained : ℕ → Bool) (rows : List ArchiveListingEntry) (row : ArchiveListingEntry) :
    RetainedEntryAction :=
  match row.block with
  | none => if retained row.index then .NoStream else .Drop
  | some folder =>
    if ∀ other ∈ rows, other.block = some folder → retained other.index = true then .CopyRaw folder
    else if retained row.index then .Decode else .Drop

/-! The table of the folders -/

def tableAt (table : List (ℕ × List ℕ)) (folder : ℕ) : List ℕ :=
  ((table.find? fun entry => entry.1 = folder).map Prod.snd).getD []

theorem tableAt_cons (entry : ℕ × List ℕ) (table : List (ℕ × List ℕ)) (folder : ℕ) :
    tableAt (entry :: table) folder = if entry.1 = folder then entry.2 else tableAt table folder := by
  unfold tableAt
  rw [List.find?_cons]
  by_cases h : entry.1 = folder
  · simp [h]
  · simp [h]

theorem tableAt_of_lt {table : List (ℕ × List ℕ)} {folder : ℕ} (h : ∀ entry ∈ table, folder < entry.1) :
    tableAt table folder = [] := by
  induction table with
  | nil => rfl
  | cons entry table ih =>
    obtain ⟨hentry, htable⟩ := List.forall_mem_cons.mp h
    rw [tableAt_cons, if_neg hentry.ne', ih htable]

theorem mem_addToFolder {folder index : ℕ} {entry : ℕ × List ℕ} : ∀ {table : List (ℕ × List ℕ)},
    entry ∈ addToFolder folder index table → entry.1 = folder ∨ entry ∈ table
  | [], h => .inl (by rw [List.mem_singleton.mp h])
  | (other, indices) :: table, h => by
    unfold addToFolder at h
    split at h
    · rcases List.mem_cons.mp h with rfl | h
      · exact .inl rfl
      · exact .inr h
    · split at h
      · rename_i hsame
        rcases List.mem_cons.mp h with rfl | h
        · exact .inl hsame.symm
        · exact .inr (List.mem_cons_of_mem _ h)
      · rcases List.mem_cons.mp h with rfl | h
        · exact .inr List.mem_cons_self
        · exact (mem_addToFolder h).imp_right (List.mem_cons_of_mem _)

theorem addToFolder_spec {folder index : ℕ} : ∀ {table : List (ℕ × List ℕ)},
    (table.map Prod.fst).Pairwise (· < ·) →
      ((addToFolder folder index table).map Prod.fst).Pairwise (· < ·) ∧
        ∀ other, tableAt (addToFolder folder index table) other =
          if other = folder then tableAt table other ++ [index] else tableAt table other
  | [], _ => by
    refine ⟨List.pairwise_singleton _ _, fun other => ?_⟩
    unfold addToFolder
    rw [tableAt_cons]
    by_cases h : other = folder
    · rw [if_pos h.symm, if_pos h]
      rfl
    · rw [if_neg (Ne.symm h), if_neg h]
  | (first, indices) :: table, h => by
    obtain ⟨hfirst, htable⟩ := List.pairwise_cons.mp h
    have hbehind : ∀ entry ∈ table, first < entry.1 := fun entry hentry =>
      hfirst entry.1 (List.mem_map_of_mem hentry)
    unfold addToFolder
    -- in front of the first folder, into it, or behind it
    by_cases hlt : folder < first
    · rw [if_pos hlt]
      refine ⟨List.pairwise_cons.mpr ⟨?_, h⟩, fun other => ?_⟩
      · refine List.forall_mem_cons.mpr ⟨hlt, fun key hkey => hlt.trans (hfirst key hkey)⟩
      · rw [tableAt_cons]
        by_cases hother : other = folder
        · rw [if_pos hother.symm, if_pos hother, hother, tableAt_cons, if_neg hlt.ne',
            tableAt_of_lt fun entry hentry => hlt.trans (hbehind entry hentry)]
          rfl
        · rw [if_neg (Ne.symm hother), if_neg hother]
    rw [if_neg hlt]
    by_cases hsame : folder = first
    · rw [if_pos hsame]
      refine ⟨h, fun other => ?_⟩
      rw [tableAt_cons, tableAt_cons]
      by_cases hother : other = folder
      · rw [if_pos (hsame.symm.trans hother.symm), if_pos hother, if_pos (hsame.symm.trans hother.symm)]
      · rw [if_neg fun heq => hother (heq.symm.trans hsame.symm), if_neg hother,
          if_neg fun heq => hother (heq.symm.trans hsame.symm)]
    · rw [if_neg hsame]
      obtain ⟨hsorted, hat⟩ := @addToFolder_spec folder index table htable
      refine ⟨List.pairwise_cons.mpr ⟨?_, hsorted⟩, fun other => ?_⟩
      · intro key hkey
        obtain ⟨entry, hentry, rfl⟩ := List.mem_map.mp hkey
        rcases mem_addToFolder hentry with hnew | hold
        · rw [hnew]
          exact lt_of_le_of_ne (Nat.not_lt.mp hlt) (Ne.symm hsame)
        · exact hbehind entry hold
      · rw [tableAt_cons, tableAt_cons, hat other]
        by_cases hother : first = other
        · rw [if_pos hother, if_pos hother, if_neg fun heq => hsame (heq.symm.trans hother.symm)]
        · rw [if_neg hother, if_neg hother]

theorem mem_table_iff {table : List (ℕ × List ℕ)} (h : (table.map Prod.fst).Pairwise (· < ·)) {folder : ℕ}
    {indices : List ℕ} (hsome : indices ≠ []) : (folder, indices) ∈ table ↔ tableAt table folder = indices := by
  induction table with
  | nil => exact iff_of_false List.not_mem_nil (Ne.symm hsome)
  | cons entry table ih =>
    obtain ⟨hentry, htable⟩ := List.pairwise_cons.mp h
    rw [tableAt_cons, List.mem_cons]
    by_cases hfolder : entry.1 = folder
    · rw [if_pos hfolder]
      constructor
      · rintro (rfl | hmem)
        · rfl
        · exact absurd hfolder (hentry folder (List.mem_map_of_mem hmem)).ne
      · rintro rfl
        exact .inl (Prod.ext hfolder.symm rfl)
    · rw [if_neg hfolder, ← ih htable]
      constructor
      · rintro (rfl | hmem)
        · exact absurd rfl hfolder
        · exact hmem
      · exact .inr

section
variable {retained : ℕ → Bool}

/-! The pass over the rows -/

structure RowsSorted (retained : ℕ → Bool) (rows : List ArchiveListingEntry)
    (before after : List RetainedEntryAction × List (ℕ × List ℕ)) : Prop where
  sorted : (after.2.map Prod.fst).Pairwise (· < ·)
  table : ∀ folder, tableAt after.2 folder = tableAt before.2 folder ++
    (rows.filter fun row => row.block = some folder).map ArchiveListingEntry.index
  length : after.1.length = before.1.length
  actions : ∀ j < before.1.length, after.1[j]? =
    if ∃ row ∈ rows, row.block = none ∧ row.index = j ∧ retained j = true then some .NoStream else before.1[j]?

theorem retainRow_sorted {plan : List RetainedEntryAction × List (ℕ × List ℕ)}
    (h : (plan.2.map Prod.fst).Pairwise (· < ·)) (row : ArchiveListingEntry) :
    RowsSorted retained [row] plan (retainRow retained plan row) := by
  unfold retainRow
  cases hblock : row.block with
  | some folder =>
    obtain ⟨hsorted, hat⟩ := @addToFolder_spec folder row.index plan.2 h
    refine ⟨hsorted, fun other => ?_, rfl, fun j _ => ?_⟩
    · rw [hat other]
      by_cases hother : other = folder
      · rw [if_pos hother, List.filter_cons_of_pos (by rw [hblock, hother]; exact decide_eq_true rfl)]
        rfl
      · rw [if_neg hother, List.filter_cons_of_neg (by simpa [hblock] using Ne.symm hother)]
        exact (List.append_nil _).symm
    · refine (if_neg ?_).symm
      rintro ⟨other, hmem, hnone, -⟩
      rw [List.mem_singleton.mp hmem, hblock] at hnone
      cases hnone
  | none =>
    have htable : ∀ folder, tableAt plan.2 folder = tableAt plan.2 folder ++
        ([row].filter fun row => row.block = some folder).map ArchiveListingEntry.index := by
      intro folder
      rw [List.filter_cons_of_neg (by simp [hblock])]
      exact (List.append_nil _).symm
    cases hretained : retained row.index with
    | true =>
      refine ⟨h, htable, List.length_set, fun j hj => ?_⟩
      change (plan.1.set row.index .NoStream)[j]? = _
      rw [List.getElem?_set]
      by_cases hindex : row.index = j
      · rw [if_pos hindex, if_pos (hindex ▸ hj), if_pos]
        exact ⟨row, List.mem_singleton_self _, hblock, hindex, hindex ▸ hretained⟩
      · rw [if_neg hindex, if_neg]
        rintro ⟨other, hmem, -, hother, -⟩
        exact hindex (List.mem_singleton.mp hmem ▸ hother)
    | false =>
      refine ⟨h, htable, rfl, fun j _ => (if_neg ?_).symm⟩
      rintro ⟨other, hmem, -, hother, hkept⟩
      rw [List.mem_singleton.mp hmem] at hother
      rw [← hother, hretained] at hkept
      cases hkept

theorem retainRows_sorted : ∀ {rows : List ArchiveListingEntry}
    {plan : List RetainedEntryAction × List (ℕ × List ℕ)}, (plan.2.map Prod.fst).Pairwise (· < ·) →
      RowsSorted retained rows plan (rows.foldl (retainRow retained) plan)
  | [], plan, h => ⟨h, fun _ => (List.append_nil _).symm, rfl, fun j _ => (if_neg (by simp)).symm⟩
  | row :: rows, plan, h => by
    have hrow := @retainRow_sorted retained plan h row
    have hrows := @retainRows_sorted rows _ hrow.sorted
    refine ⟨hrows.sorted, fun folder => ?_, hrows.length.trans hrow.length, fun j hj => ?_⟩
    · rw [List.foldl_cons, hrows.table folder, hrow.table folder, List.append_assoc, ← List.map_append,
        ← List.filter_append]
      rfl
    · rw [List.foldl_cons, hrows.actions j (hrow.length ▸ hj), hrow.actions j hj]
      by_cases hlater : ∃ other ∈ rows, other.block = none ∧ other.index = j ∧ retained j = true
      · obtain ⟨other, hmem, hother⟩ := hlater
        rw [if_pos ⟨other, hmem, hother⟩, if_pos ⟨other, List.mem_cons_of_mem _ hmem, hother⟩]
      · rw [if_neg hlater]
        refine if_congr ?_ rfl rfl
        constructor
        · rintro ⟨other, hmem, hother⟩
          exact ⟨other, List.mem_singleton.mp hmem ▸ List.mem_cons_self, hother⟩
        · rintro ⟨other, hmem, hother⟩
          rcases List.mem_cons.mp hmem with rfl | hmem
          · exact ⟨other, List.mem_singleton_self _, hother⟩
          · exact absurd ⟨other, hmem, hother⟩ hlater

/-! The pass over the folders -/

theorem foldl_set {v : RetainedEntryAction} : ∀ {indices : List ℕ} {actions : List RetainedEntryAction},
    (indices.foldl (fun actions index => actions.set index v) actions).length = actions.length ∧
      ∀ j < actions.length, (indices.foldl (fun actions index => actions.set index v) actions)[j]? =
        if j ∈ indices then some v else actions[j]?
  | [], _ => ⟨rfl, fun _ _ => rfl⟩
  | index :: indices, actions => by
    obtain ⟨hlength, hat⟩ := @foldl_set v indices (actions.set index v)
    rw [List.length_set] at hlength hat
    refine ⟨hlength, fun j hj => ?_⟩
    rw [List.foldl_cons, hat j hj, List.getElem?_set]
    by_cases hmem : j ∈ indices
    · rw [if_pos hmem, if_pos (List.mem_cons_of_mem _ hmem)]
    · rw [if_neg hmem]
      by_cases hindex : index = j
      · rw [if_pos hindex, if_pos (hindex ▸ hj), if_pos (hindex ▸ List.mem_cons_self)]
      · rw [if_neg hindex, if_neg fun h => (List.mem_cons.mp h).elim (fun heq => hindex heq.symm) hmem]

theorem retainFolder_spec (actions : List RetainedEntryAction) (folder : ℕ × List ℕ) :
    (retainFolder retained actions folder).length = actions.length ∧
      ∀ j < actions.length, (retainFolder retained actions folder)[j]? =
        if j ∈ folder.2 then
          if ∀ i ∈ folder.2, retained i = true then some (.CopyRaw folder.1)
          else if retained j then some .Decode else actions[j]?
        else actions[j]? := by
  unfold retainFolder
  by_cases hall : ∀ i ∈ folder.2, retained i = true
  · dsimp only
    rw [if_pos (List.countP_eq_length.mpr hall)]
    obtain ⟨hlength, hat⟩ := @foldl_set (.CopyRaw folder.1) folder.2 actions
    refine ⟨hlength, fun j hj => ?_⟩
    rw [hat j hj, if_pos hall]
  · dsimp only
    rw [if_neg fun h => hall (List.countP_eq_length.mp h)]
    by_cases hsome : 0 < folder.2.countP retained
    · rw [if_pos hsome]
      obtain ⟨hlength, hat⟩ := @foldl_set .Decode (folder.2.filter retained) actions
      refine ⟨hlength, fun j hj => ?_⟩
      rw [hat j hj, if_neg hall]
      by_cases hmem : j ∈ folder.2
      · rw [if_pos hmem]
        exact if_congr (by rw [List.mem_filter, and_iff_right hmem]) rfl rfl
      · rw [if_neg hmem, if_neg fun h => hmem (List.mem_of_mem_filter h)]
    · rw [if_neg hsome]
      refine ⟨rfl, fun j _ => ?_⟩
      by_cases hmem : j ∈ folder.2
      · rw [if_pos hmem, if_neg hall, if_neg fun h => hsome (List.countP_pos_iff.mpr ⟨j, hmem, h⟩)]
      · rw [if_neg hmem]

theorem retainFolders_other : ∀ {table : List (ℕ × List ℕ)} {actions : List RetainedEntryAction} {j : ℕ},
    j < actions.length → (∀ folder ∈ table, j ∉ folder.2) →
      (table.foldl (retainFolder retained) actions)[j]? = actions[j]?
  | [], _, _, _, _ => rfl
  | folder :: table, actions, j, hj, h => by
    obtain ⟨hfolder, htable⟩ := List.forall_mem_cons.mp h
    obtain ⟨hlength, hat⟩ := @retainFolder_spec retained actions folder
    rw [List.foldl_cons, retainFolders_other (hlength ▸ hj) htable, hat j hj, if_neg hfolder]

theorem retainFolders_length : ∀ (table : List (ℕ × List ℕ)) (actions : List RetainedEntryAction),
    (table.foldl (retainFolder retained) actions).length = actions.length
  | [], _ => rfl
  | folder :: table, actions =>
    (retainFolders_length table _).trans (retainFolder_spec actions folder).1

theorem retainFolders_one {table : List (ℕ × List ℕ)} {actions : List RetainedEntryAction} {j : ℕ}
    (hj : j < actions.length) {folder : ℕ × List ℕ} (hmem : folder ∈ table) (hin : j ∈ folder.2)
    (hnodup : (table.map Prod.fst).Pairwise (· < ·))
    (hone : ∀ other ∈ table, other.1 ≠ folder.1 → j ∉ other.2) :
    (table.foldl (retainFolder retained) actions)[j]? =
      if ∀ i ∈ folder.2, retained i = true then some (.CopyRaw folder.1)
      else if retained j then some .Decode else actions[j]? := by
  obtain ⟨before, after, rfl⟩ := List.append_of_mem hmem
  rw [List.map_append, List.map_cons] at hnodup
  obtain ⟨-, hafter, hbefore⟩ := List.pairwise_append.mp hnodup
  have hnotBefore : ∀ other ∈ before, j ∉ other.2 := fun other hother =>
    hone other (List.mem_append_left _ hother)
      (hbefore other.1 (List.mem_map_of_mem hother) folder.1 List.mem_cons_self).ne
  have hnotAfter : ∀ other ∈ after, j ∉ other.2 := fun other hother =>
    hone other (List.mem_append_right _ (List.mem_cons_of_mem _ hother))
      ((List.pairwise_cons.mp hafter).1 other.1 (List.mem_map_of_mem hother)).ne'
  rw [List.foldl_append, List.foldl_cons]
  have hlengthBefore := @retainFolders_length retained before actions
  obtain ⟨hlength, hat⟩ := @retainFolder_spec retained (before.foldl (retainFolder retained) actions) folder
  rw [retainFolders_other (by rw [hlength, hlengthBefore]; exact hj) hnotAfter, hat j (hlengthBefore ▸ hj), if_pos hin,
    retainFolders_other hj hnotBefore]

theorem mem_folder {rows : List ArchiveListingEntry} {table : List (ℕ × List ℕ)}
    (hsorted : (table.map Prod.fst).Pairwise (· < ·))
    (htable : ∀ folder, tableAt table folder =
      (rows.filter fun row => row.block = some folder).map ArchiveListingEntry.index)
    {folder : ℕ × List ℕ} (hmem : folder ∈ table) {j : ℕ} (hj : j ∈ folder.2) :
    ∃ row ∈ rows, row.block = some folder.1 ∧ row.index = j := by
  have hat : tableAt table folder.1 = folder.2 := (mem_table_iff hsorted (List.ne_nil_of_mem hj)).mp hmem
  rw [← hat, htable] at hj
  obtain ⟨row, hrow, hindex⟩ := List.mem_map.mp hj
  obtain ⟨hrows, hblock⟩ := List.mem_filter.mp hrow
  exact ⟨row, hrows, of_decide_eq_true hblock, hindex⟩

/-- The two passes make the decision about each row. -/
theorem retainedActions_eq {rows : List ArchiveListingEntry}
    (hindices : rows.map ArchiveListingEntry.index = List.range rows.length) :
    retainedActions retained rows rows.length = rows.map (decision retained rows) := by
  have hpass := @retainRows_sorted retained rows (List.replicate rows.length .Drop, []) List.Pairwise.nil
  unfold retainedActions
  dsimp only
  generalize rows.foldl (retainRow retained) (List.replicate rows.length .Drop, []) = plan at hpass
  obtain ⟨hsorted, htable, hlength, hactions⟩ := hpass
  change ∀ folder, tableAt plan.2 folder = [] ++ _ at htable
  simp only [List.nil_append] at htable
  simp only [List.length_replicate] at hlength hactions
  -- an index belongs to one row, so no other row writes at its place
  have hunique : ∀ row ∈ rows, ∀ other ∈ rows, row.index = other.index → row = other := fun row hrow other hother =>
    List.inj_on_of_nodup_map (hindices ▸ List.nodup_range) hrow hother
  refine List.ext_getElem? fun j => ?_
  rcases Nat.lt_or_ge j rows.length with hj | hj
  swap
  · rw [List.getElem?_eq_none (by rw [retainFolders_length, hlength]; exact hj),
      List.getElem?_eq_none (by rw [List.length_map]; exact hj)]
  have hindex : rows[j].index = j := by
    have hat := congrArg (·[j]?) hindices
    simpa [hj] using hat
  rw [List.getElem?_map, List.getElem?_eq_getElem hj, Option.map_some]
  have hrow : rows[j] ∈ rows := List.getElem_mem hj
  generalize rows[j] = row at hindex hrow
  unfold decision
  cases hblock : row.block with
  | none =>
    have hnot : ∀ folder ∈ plan.2, j ∉ folder.2 := by
      intro folder hfolder hin
      obtain ⟨other, hother, hsome, heq⟩ := mem_folder hsorted htable hfolder hin
      rw [hunique other hother row hrow (heq.trans hindex.symm), hblock] at hsome
      cases hsome
    rw [retainFolders_other (hlength ▸ hj) hnot, hactions j hj]
    cases hretained : retained row.index with
    | true => exact if_pos ⟨row, hrow, hblock, hindex, hindex ▸ hretained⟩
    | false =>
      rw [if_neg, List.getElem?_replicate, if_pos hj]
      · rfl
      · rintro ⟨-, -, -, -, hkept⟩
        rw [← hindex, hretained] at hkept
        cases hkept
  | some folder =>
    have hin : j ∈ tableAt plan.2 folder := by
      rw [htable, ← hindex]
      exact List.mem_map_of_mem (List.mem_filter.mpr ⟨hrow, decide_eq_true hblock⟩)
    have hmem : (folder, tableAt plan.2 folder) ∈ plan.2 := (mem_table_iff hsorted (List.ne_nil_of_mem hin)).mpr rfl
    have hone : ∀ other ∈ plan.2, other.1 ≠ folder → j ∉ other.2 := by
      intro other hother hne hat
      obtain ⟨row', hrow', hsome, heq⟩ := mem_folder hsorted htable hother hat
      rw [hunique row' hrow' row hrow (heq.trans hindex.symm), hblock] at hsome
      exact hne (Option.some.inj hsome).symm
    have hall : (∀ i ∈ tableAt plan.2 folder, retained i = true) ↔
        ∀ other ∈ rows, other.block = some folder → retained other.index = true := by
      rw [htable, List.forall_mem_map]
      refine forall_congr' fun other => ?_
      rw [List.mem_filter, and_imp]
      exact forall_congr' fun _ => by rw [decide_eq_true_iff]
    -- before the folders are gone through, a row with data is dropped
    have hdropped : plan.1[j]? = some .Drop := by
      rw [hactions j hj, if_neg, List.getElem?_replicate, if_pos hj]
      rintro ⟨other, hother, hnone, heq, -⟩
      rw [hunique other hother row hrow (heq.trans hindex.symm), hblock] at hnone
      cases hnone
    rw [retainFolders_one (hlength ▸ hj) hmem hin hsorted hone, hdropped, hindex]
    dsimp only
    by_cases hwhole : ∀ other ∈ rows, other.block = some folder → retained other.index = true
    · rw [if_pos (hall.mpr hwhole), if_pos hwhole]
    · rw [if_neg fun h => hwhole (hall.mp h), if_neg hwhole]
      cases retained j <;> rfl

end

end Write

end R7z
