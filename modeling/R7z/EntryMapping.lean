import R7z.FileStreams

/-! The substreams of an archive in folder order, and which of them an entry is given. Walking the
entries one by one and jumping over them come to the same. -/

namespace R7z

open Effect Effect.Machine

/-! The substreams of one folder -/

namespace Substreams

theorem next_eq {streams : Substreams} (h : 0 < streams.remaining) :
    ∃ size : UInt64, streams.next =
      some ({ start := streams.offset, stop := streams.offset + size.toNat,
              digest := (streams.layout.digests[streams.position]?).join },
            { streams with position := streams.position + 1, offset := streams.offset + size.toNat }) := by
  have hlt : streams.position < streams.layout.len := Nat.lt_of_sub_pos h
  have hsize : ∃ size, (streams.layout.explicitSizes[streams.position]?).or streams.layout.finalSize =
      some size := by
    unfold FolderStreamLayout.len at hlt
    rcases Nat.lt_or_ge streams.position streams.layout.explicitSizes.length with hexplicit | hlast
    · exact ⟨_, by rw [List.getElem?_eq_getElem hexplicit, Option.some_or]⟩
    · rw [List.getElem?_eq_none hlast, Option.none_or]
      split at hlt
      · rename_i hsome
        exact Option.isSome_iff_exists.mp hsome
      · omega
  obtain ⟨size, hsize⟩ := hsize
  refine ⟨size, ?_⟩
  unfold next
  rw [if_neg (Nat.ne_of_lt hlt), hsize]

theorem next_of_remaining {streams : Substreams} (h : 0 < streams.remaining) :
    ∃ stream after, streams.next = some (stream, after) ∧ after.remaining + 1 = streams.remaining := by
  obtain ⟨size, hnext⟩ := next_eq h
  refine ⟨_, _, hnext, ?_⟩
  unfold remaining at h ⊢
  dsimp only
  omega

theorem toList_of_next {streams after : Substreams} {stream : Substream}
    (hnext : streams.next = some (stream, after)) (h : after.remaining + 1 = streams.remaining) :
    streams.toList = stream :: after.toList := by
  unfold toList
  rw [← h, collect, hnext]

theorem toList_length : ∀ {n : ℕ} {streams : Substreams}, streams.remaining = n →
    streams.toList.length = n
  | 0, streams, h => by
    unfold toList
    rw [h]
    rfl
  | n + 1, streams, h => by
    obtain ⟨stream, after, hnext, hafter⟩ := next_of_remaining (Nat.lt_of_lt_of_eq (Nat.succ_pos n) h.symm)
    rw [toList_of_next hnext hafter, List.length_cons,
      toList_length (n := n) (Nat.succ_injective (hafter.trans h))]

@[simp] theorem length_toList (streams : Substreams) : streams.toList.length = streams.remaining :=
  toList_length rfl

theorem nth_of_lt {n : ℕ} : ∀ {streams : Substreams}, n < streams.remaining →
    ∃ stream after, streams.nth n = (some stream, after) ∧ streams.toList[n]? = some stream ∧
      after.toList = streams.toList.drop (n + 1) := by
  induction n with
  | zero =>
    intro streams h
    obtain ⟨stream, after, hnext, hafter⟩ := next_of_remaining h
    refine ⟨stream, after, ?_, ?_, ?_⟩
    · rw [nth, hnext]
    · rw [toList_of_next hnext hafter]
      rfl
    · rw [toList_of_next hnext hafter]
      rfl
  | succ n ih =>
    intro streams h
    obtain ⟨first, middle, hnext, hmiddle⟩ := next_of_remaining (Nat.zero_lt_of_lt h)
    obtain ⟨stream, after, hnth, hstream, hafter⟩ := @ih middle (by omega)
    refine ⟨stream, after, ?_, ?_, ?_⟩
    · rw [nth, hnext]
      exact hnth
    · rw [toList_of_next hnext hmiddle]
      exact hstream
    · rw [toList_of_next hnext hmiddle]
      exact hafter

theorem nth_cons {n : ℕ} {streams after : Substreams} {first : Substream}
    (h : streams.next = some (first, after)) : streams.nth (n + 1) = after.nth n := by
  rw [nth, h]

theorem nth_succ (n : ℕ) : ∀ {streams after : Substreams} {stream : Substream},
    streams.nth n = (some stream, after) → streams.nth (n + 1) = after.nth 0 := by
  induction n with
  | zero =>
    intro streams after stream h
    rcases hnext : streams.next with _ | ⟨first, middle⟩ <;> rw [nth, hnext] at h <;> cases h
    exact nth_cons hnext
  | succ n ih =>
    intro streams after stream h
    rcases hnext : streams.next with _ | ⟨first, middle⟩
    · rw [nth, hnext] at h
      cases h
    · rw [nth_cons hnext] at h
      rw [nth_cons hnext]
      exact ih h

end Substreams

/-! The substreams of all folders -/

theorem drop_zipIdx {α : Type} (l : List α) (k n : ℕ) :
    (l.zipIdx k).drop n = (l.drop n).zipIdx (k + n) := by
  apply List.ext_getElem?
  intro i
  rw [List.getElem?_drop, List.getElem?_zipIdx, List.getElem?_zipIdx, List.getElem?_drop, Nat.add_assoc]

def FolderStreams.left (folder : FolderStreams) : List StreamLocation :=
  (folder.streams.toList.zipIdx folder.position).map fun (stream, i) =>
    { folderIndex := folder.index, streamIndex := i, folder := folder.folder, stream }

@[simp] theorem FolderStreams.length_left (folder : FolderStreams) :
    folder.left.length = folder.streams.remaining := by
  unfold FolderStreams.left
  rw [List.length_map, List.length_zipIdx, Substreams.length_toList]

namespace StreamLocations

def foldersLeft : Nat → Option (Nat × FolderLayouts) → List StreamLocation
  | 0, _ => []
  | turns + 1, folders =>
    match nextFolder folders with
    | (some (index, .ok folder), folders) => (openFolder index folder).left ++ foldersLeft turns folders
    | _ => []

/-- The locations that are still to be handed out, up to the first folder that fails. -/
def left (locations : StreamLocations) : List StreamLocation :=
  ((locations.current.map FolderStreams.left).getD []) ++
    foldersLeft (turns locations.folders) locations.folders

inductive NextFolder (folders : Option (Nat × FolderLayouts)) : Prop where
  | ends (after : Option (Nat × FolderLayouts)) (heq : nextFolder folders = (none, after))
    (hturns : turns after = 0) (hidle : nextFolder after = (none, after))
  | fails (i : ℕ) (e : R7zError) (after : Option (Nat × FolderLayouts))
    (heq : nextFolder folders = (some (i, .error e), after)) (hturns : turns after = 0)
    (hpos : 0 < turns folders)
  | hands (i : ℕ) (folder : FolderLayout) (after : Option (Nat × FolderLayouts))
    (heq : nextFolder folders = (some (i, .ok folder), after))
    (hturns : turns folders = turns after + 1)

theorem nextFolder_cases : ∀ folders : Option (Nat × FolderLayouts), NextFolder folders
  | none => .ends none rfl rfl rfl
  | some (i, layouts) => by
    cases layouts.turn with
    | ends after heq hturns hidle =>
      refine .ends (some (i, after)) ?_ hturns ?_
      · rw [nextFolder, heq]
      · rw [nextFolder, hidle]
    | fails e after heq hturns hpos =>
      refine .fails i e (some (i + 1, after)) ?_ hturns hpos
      rw [nextFolder, heq]
    | hands folder after heq htakes hturns =>
      refine .hands i folder (some (i + 1, after)) ?_ hturns
      rw [nextFolder, heq]

inductive Sought (n : ℕ) (all : List StreamLocation) :
    Except R7zError (Option (FolderStreams × Nat)) × Option (Nat × FolderLayouts) → Prop where
  | found (before : List StreamLocation) (folder : FolderStreams) (m : ℕ)
    (after : Option (Nat × FolderLayouts)) (hlt : m < folder.streams.remaining)
    (hn : n = before.length + m)
    (hall : all = before ++ (folder.left ++ foldersLeft (turns after) after)) :
    Sought n all (.ok (some (folder, m)), after)
  | ended (result : Except R7zError (Option (FolderStreams × Nat)))
    (after : Option (Nat × FolderLayouts)) (hresult : result = .ok none ∨ ∃ e, result = .error e)
    (hturns : turns after = 0) (hlen : all.length ≤ n) :
    Sought n all (result, after)

theorem Sought.after {n : ℕ} {passed all : List StreamLocation}
    {outcome : Except R7zError (Option (FolderStreams × Nat)) × Option (Nat × FolderLayouts)}
    (hlen : passed.length ≤ n) (h : Sought (n - passed.length) all outcome) :
    Sought n (passed ++ all) outcome := by
  cases h with
  | found before folder m after hlt hn hall =>
    refine .found (passed ++ before) folder m after hlt ?_ ?_
    · rw [List.length_append]
      omega
    · rw [hall, List.append_assoc]
  | ended result after hresult hturns hall =>
    refine .ended result after hresult hturns ?_
    rw [List.length_append]
    omega

theorem seek_sought : ∀ (k n : ℕ) (folders : Option (Nat × FolderLayouts)), turns folders = k →
    Sought n (foldersLeft k folders) (seek k n folders)
  | 0, n, folders, h => .ended _ _ (Or.inl rfl) h (Nat.zero_le n)
  | k + 1, n, folders, h => by
    cases nextFolder_cases folders with
    | ends after heq hturns _ =>
      rw [seek, foldersLeft, heq]
      exact .ended _ _ (Or.inl rfl) hturns (Nat.zero_le n)
    | fails i e after heq hturns _ =>
      rw [seek, foldersLeft, heq]
      exact .ended _ _ (Or.inr ⟨e, rfl⟩) hturns (Nat.zero_le n)
    | hands i folder after heq hturns =>
      have hk : turns after = k := by omega
      have hlen : (openFolder i folder).left.length = folder.substreams.remaining :=
        FolderStreams.length_left _
      rw [seek, foldersLeft, heq]
      dsimp only
      by_cases hlt : n < folder.substreams.remaining
      · rw [if_pos hlt, ← hk]
        exact .found [] _ _ _ hlt (Nat.zero_add n).symm rfl
      · rw [if_neg hlt]
        refine Sought.after (by omega) ?_
        rw [hlen]
        exact seek_sought k _ after hk

theorem locate_sought (n : ℕ) (locations : StreamLocations) :
    Sought n locations.left (locations.locate n) := by
  obtain ⟨folders, current⟩ := locations
  cases current with
  | none => exact seek_sought _ n folders rfl
  | some folder =>
    change Sought n (folder.left ++ foldersLeft (turns folders) folders)
      (if n < folder.streams.remaining then (.ok (some (folder, n)), folders)
       else seek (turns folders) (n - folder.streams.remaining) folders)
    by_cases hlt : n < folder.streams.remaining
    · rw [if_pos hlt]
      exact .found [] _ _ _ hlt (Nat.zero_add n).symm rfl
    · rw [if_neg hlt]
      have hlen := folder.length_left
      refine Sought.after (by omega) ?_
      rw [hlen]
      exact seek_sought _ _ folders rfl

theorem foldersLeft_of_turns {folders : Option (Nat × FolderLayouts)} (h : turns folders = 0) :
    foldersLeft (turns folders) folders = [] := by
  rw [h]
  rfl

theorem nth_outcome (n : ℕ) (locations : StreamLocations) :
    Outcome (fun location after => locations.left[n]? = some location ∧
        after.left = locations.left.drop (n + 1))
      (fun _ after => locations.left.length ≤ n ∧ after.left = []) (nth n locations) := by
  have hsought := locate_sought n locations
  unfold nth
  generalize locations.locate n = outcome at hsought
  cases hsought with
  | ended result after hresult hturns hlen =>
    have hleft : StreamLocations.left { folders := after, current := none } = [] :=
      foldersLeft_of_turns hturns
    rcases hresult with rfl | ⟨e, rfl⟩
    · exact ⟨hlen, hleft⟩
    · exact ⟨hlen, hleft⟩
  | found before folder m after hlt hn hall =>
    obtain ⟨stream, streams, hnth, hstream, hstreams⟩ := Substreams.nth_of_lt hlt
    dsimp only
    rw [hnth]
    refine ⟨?_, ?_⟩
    · have hm : folder.left[m]? = some { folderIndex := folder.index
                                         streamIndex := folder.position + m
                                         folder := folder.folder
                                         stream } := by
        unfold FolderStreams.left
        rw [List.getElem?_map, List.getElem?_zipIdx, hstream]
        rfl
      have hlen : m < folder.left.length := by rwa [folder.length_left]
      rw [hall, hn, List.getElem?_append_right (Nat.le_add_right _ _), Nat.add_sub_cancel_left,
        List.getElem?_append_left hlen, hm]
    · have hrest : FolderStreams.left { folder with streams, position := folder.position + m + 1 } =
          folder.left.drop (m + 1) := by
        unfold FolderStreams.left
        dsimp only
        rw [hstreams, ← List.map_drop, drop_zipIdx, Nat.add_assoc]
      have hle : m + 1 ≤ folder.left.length := by
        rw [folder.length_left]
        omega
      change FolderStreams.left { folder with streams, position := folder.position + m + 1 } ++
        foldersLeft (turns after) after = _
      rw [hall, hn, hrest, Nat.add_assoc, List.drop_length_add_append, List.drop_append_of_le_length hle]

theorem seek_succ : ∀ (k n : ℕ) (folders : Option (Nat × FolderLayouts)), turns folders = k →
    seek k (n + 1) folders = match seek k n folders with
      | (.ok (some (folder, m)), after) =>
        if m + 1 < folder.streams.remaining then (.ok (some (folder, m + 1)), after)
        else seek (turns after) (m + 1 - folder.streams.remaining) after
      | other => other
  | 0, _, _, _ => rfl
  | k + 1, n, folders, h => by
    cases nextFolder_cases folders with
    | ends after heq hturns _ => rw [seek, seek, heq]
    | fails i e after heq hturns _ => rw [seek, seek, heq]
    | hands i folder after heq hturns =>
      have hk : turns after = k := by omega
      rw [seek, seek, heq]
      dsimp only
      by_cases hlt : n < folder.substreams.remaining
      · rw [if_pos hlt, ← hk]
        rfl
      · have hnot : ¬n + 1 < folder.substreams.remaining := by omega
        have hsub : n + 1 - folder.substreams.remaining = n - folder.substreams.remaining + 1 := by omega
        rw [if_neg hlt, if_neg hnot, hsub]
        exact seek_succ k _ after hk

theorem nth_succ (n : ℕ) : nth (n + 1) = nth n >>= fun _ => nth 0 := by
  funext locations
  -- one place further: the same folder while it has a stream left, or the search goes on
  have hlocate : locations.locate (n + 1) = match locations.locate n with
      | (.ok (some (folder, m)), after) =>
        if m + 1 < folder.streams.remaining then (.ok (some (folder, m + 1)), after)
        else seek (turns after) (m + 1 - folder.streams.remaining) after
      | other => other := by
    obtain ⟨folders, current⟩ := locations
    cases current with
    | none => exact seek_succ _ n folders rfl
    | some folder =>
      unfold locate
      dsimp only
      by_cases hlt : n < folder.streams.remaining
      · rw [if_pos hlt]
      · have hnot : ¬n + 1 < folder.streams.remaining := by omega
        have hsub : n + 1 - folder.streams.remaining = n - folder.streams.remaining + 1 := by omega
        rw [if_neg hlt, if_neg hnot, hsub]
        exact seek_succ _ _ folders rfl
  rw [bind_apply]
  have hsought := locate_sought n locations
  unfold nth
  rw [hlocate]
  generalize locations.locate n = outcome at hsought
  cases hsought with
  | ended result after hresult hturns hlen =>
    rcases hresult with rfl | ⟨e, rfl⟩ <;> rfl
  | found before folder m after hlt hn hall =>
    obtain ⟨stream, streams, hnth, hstream, hstreams⟩ := Substreams.nth_of_lt hlt
    have hremaining : streams.remaining = folder.streams.remaining - (m + 1) := by
      have hlen := congrArg List.length hstreams
      rwa [List.length_drop, Substreams.length_toList, Substreams.length_toList] at hlen
    dsimp only
    rw [hnth]
    unfold locate
    dsimp only
    by_cases hmore : m + 1 < folder.streams.remaining
    · have hzero : 0 < streams.remaining := by omega
      obtain ⟨next, rest, hnext, -⟩ := Substreams.nth_of_lt hzero
      rw [if_pos hmore, if_pos hzero]
      dsimp only
      rw [Substreams.nth_succ m hnth, hnext]
      rfl
    · have hzero : ¬0 < streams.remaining := by omega
      have hexact : m + 1 - folder.streams.remaining = 0 - streams.remaining := by omega
      rw [if_neg hmore, if_neg hzero, hexact]

theorem advanceBy_succ (n : ℕ) : (advanceBy (n + 1) : Machine StreamLocations R7zError Unit) =
    advanceBy n >>= fun _ => advanceBy 1 := by
  cases n with
  | zero => rfl
  | succ n =>
    funext locations
    have hsucc := congrFun (nth_succ n) locations
    unfold advanceBy
    simp only [bind_apply] at hsucc ⊢
    rw [hsucc]
    rcases nth n locations with ⟨_ | location, after⟩ <;> rfl

theorem advanceBy_add (m n : ℕ) : (advanceBy (m + n) : Machine StreamLocations R7zError Unit) =
    advanceBy m >>= fun _ => advanceBy n := by
  induction n with
  | zero =>
    funext locations
    rw [Nat.add_zero, bind_apply]
    rcases advanceBy m locations with ⟨_ | ⟨⟩, after⟩ <;> rfl
  | succ n ih =>
    funext locations
    rw [← Nat.add_assoc, advanceBy_succ, ih, advanceBy_succ n]
    simp only [bind_apply]
    rcases advanceBy m locations with ⟨_ | _, after⟩ <;> rfl

theorem advanceBy_outcome (n : ℕ) (locations : StreamLocations) :
    Outcome (fun _ after => after.left = locations.left.drop n ∧ n ≤ locations.left.length)
      (fun _ after => locations.left.length < n ∧ after.left = []) (advanceBy n locations) := by
  cases n with
  | zero => exact ⟨rfl, Nat.zero_le _⟩
  | succ n =>
    have hnth := nth_outcome n locations
    change Outcome _ _ ((nth n >>= fun _ => pure ()) locations)
    rw [bind_apply]
    rcases hlocation : nth n locations with ⟨e | location, after⟩ <;> rw [hlocation] at hnth
    · exact ⟨Nat.lt_succ_of_le hnth.1, hnth.2⟩
    · obtain ⟨hlt, -⟩ := List.getElem?_eq_some_iff.mp hnth.1
      exact ⟨hnth.2, hlt⟩

/-- The folders to come, each with its number, and none that fails among them. -/
inductive Hands : Option (Nat × FolderLayouts) → List (FolderLayout × Nat) → Prop where
  | ends {folders after : Option (Nat × FolderLayouts)} (heq : nextFolder folders = (none, after)) :
    Hands folders []
  | hands {folders after : Option (Nat × FolderLayouts)} {i : ℕ} {folder : FolderLayout}
    {rest : List (FolderLayout × Nat)} (heq : nextFolder folders = (some (i, .ok folder), after))
    (tail : Hands after rest) : Hands folders ((folder, i) :: rest)

def substreamsOf (folders : List (FolderLayout × Nat)) : List StreamLocation :=
  folders.flatMap fun (folder, i) => (openFolder i folder).left

theorem Hands.nil {folders after : Option (Nat × FolderLayouts)} {rest : List (FolderLayout × Nat)}
    (h : Hands folders rest) (heq : nextFolder folders = (none, after)) : rest = [] := by
  cases h with
  | ends heq' => rfl
  | hands heq' tail =>
    rw [heq] at heq'
    cases heq'

theorem Hands.cons {folders after : Option (Nat × FolderLayouts)} {rest : List (FolderLayout × Nat)}
    {i : ℕ} {folder : FolderLayout} (h : Hands folders rest)
    (heq : nextFolder folders = (some (i, .ok folder), after)) :
    ∃ tail, rest = (folder, i) :: tail ∧ Hands after tail := by
  cases h with
  | ends heq' =>
    rw [heq] at heq'
    cases heq'
  | hands heq' tail =>
    rw [heq] at heq'
    cases heq'
    exact ⟨_, rfl, tail⟩

theorem Hands.not_fails {folders after : Option (Nat × FolderLayouts)}
    {rest : List (FolderLayout × Nat)} {i : ℕ} {e : R7zError} (h : Hands folders rest)
    (heq : nextFolder folders = (some (i, .error e), after)) : False := by
  cases h with
  | ends heq' =>
    rw [heq] at heq'
    cases heq'
  | hands heq' tail =>
    rw [heq] at heq'
    cases heq'

theorem Hands.left : ∀ {k : ℕ} {folders : Option (Nat × FolderLayouts)}
    {rest : List (FolderLayout × Nat)}, turns folders = k → Hands folders rest →
      foldersLeft k folders = substreamsOf rest
  | 0, folders, rest, hk, h => by
    cases nextFolder_cases folders with
    | ends after heq _ _ =>
      rw [h.nil heq]
      rfl
    | fails i e after heq _ _ => exact (h.not_fails heq).elim
    | hands i folder after heq hturns =>
      rw [hk] at hturns
      cases hturns
  | k + 1, folders, rest, hk, h => by
    cases nextFolder_cases folders with
    | ends after heq _ _ =>
      rw [h.nil heq, foldersLeft, heq]
      rfl
    | fails i e after heq _ _ => exact (h.not_fails heq).elim
    | hands i folder after heq hturns =>
      obtain ⟨tail, rfl, htail⟩ := h.cons heq
      have hrest := Hands.left (k := k) (by omega) htail
      rw [foldersLeft, heq]
      dsimp only
      rw [hrest]
      rfl

theorem Hands.seek : ∀ {k n : ℕ} {folders : Option (Nat × FolderLayouts)}
    {rest : List (FolderLayout × Nat)}, Hands folders rest →
      (∃ found, (seek k n folders).1 = .ok found) ∧ ∃ rest', Hands (seek k n folders).2 rest'
  | 0, n, folders, rest, h => ⟨⟨none, rfl⟩, rest, h⟩
  | k + 1, n, folders, rest, h => by
    rw [StreamLocations.seek]
    cases nextFolder_cases folders with
    | ends after heq _ hidle =>
      rw [heq]
      exact ⟨⟨none, rfl⟩, [], .ends hidle⟩
    | fails i e after heq _ _ => exact (h.not_fails heq).elim
    | hands i folder after heq _ =>
      obtain ⟨tail, rfl, htail⟩ := h.cons heq
      rw [heq]
      dsimp only
      by_cases hlt : n < folder.substreams.remaining
      · rw [if_pos hlt]
        exact ⟨⟨_, rfl⟩, tail, htail⟩
      · rw [if_neg hlt]
        exact Hands.seek htail

def Clean (locations : StreamLocations) : Prop := ∃ rest, Hands locations.folders rest

theorem nth_clean (n : ℕ) {locations : StreamLocations} (h : locations.Clean) :
    (nth n locations).2.Clean := by
  obtain ⟨rest, hrest⟩ := h
  have hlocate : ∃ rest', Hands (locations.locate n).2 rest' := by
    unfold locate
    rcases locations.current with _ | folder
    · exact hrest.seek.2
    · dsimp only
      by_cases hlt : n < folder.streams.remaining
      · rw [if_pos hlt]
        exact ⟨rest, hrest⟩
      · rw [if_neg hlt]
        exact hrest.seek.2
  unfold nth
  generalize locations.locate n = outcome at hlocate
  rcases outcome with ⟨e | _ | ⟨folder, m⟩, after⟩
  · exact hlocate
  · exact hlocate
  · dsimp only
    rcases folder.streams.nth m with ⟨_ | stream, streams⟩ <;> exact hlocate

theorem advanceBy_clean (n : ℕ) {locations : StreamLocations} (h : locations.Clean) :
    (advanceBy n locations).2.Clean := by
  rcases n with _ | m
  · exact h
  have hnth := nth_clean m h
  change ((nth m >>= fun _ => pure ()) locations).2.Clean
  rw [bind_apply]
  rcases hlocation : nth m locations with ⟨_ | _, _⟩ <;> rw [hlocation] at hnth <;> exact hnth

theorem Hands.finish : ∀ {k : ℕ} {folders : Option (Nat × FolderLayouts)}
    {rest : List (FolderLayout × Nat)}, Hands folders rest → substreamsOf rest = [] →
      (finishFolders k folders).1 = .ok () ∧
        ∃ rest', Hands (finishFolders k folders).2 rest' ∧ substreamsOf rest' = []
  | 0, folders, rest, h, hnone => ⟨rfl, rest, h, hnone⟩
  | k + 1, folders, rest, h, hnone => by
    rw [finishFolders]
    cases nextFolder_cases folders with
    | ends after heq _ hidle =>
      rw [heq]
      exact ⟨rfl, [], .ends hidle, rfl⟩
    | fails i e after heq _ _ => exact (h.not_fails heq).elim
    | hands i folder after heq _ =>
      obtain ⟨tail, rfl, htail⟩ := h.cons heq
      have hfirst : (openFolder i folder).left ++ substreamsOf tail = [] := hnone
      obtain ⟨hempty, hrest⟩ := List.append_eq_nil_iff.mp hfirst
      have hlen : folder.layout.len = 0 := by
        have hleft := (openFolder i folder).length_left
        rw [hempty] at hleft
        exact hleft.symm
      have hnext : folder.substreams.next = none := by
        change (if (0 : ℕ) = folder.layout.len then none else _) = _
        rw [if_pos hlen.symm]
      rw [heq]
      dsimp only
      rw [hnext]
      exact Hands.finish htail hrest

theorem finish_clean {locations : StreamLocations} (h : locations.Clean) (hleft : locations.left = []) :
    (finish locations).1 = .ok () ∧ (finish locations).2.Clean ∧ (finish locations).2.left = [] := by
  obtain ⟨rest, hrest⟩ := h
  obtain ⟨hcurrent, hfolders⟩ := List.append_eq_nil_iff.mp hleft
  have hnone : ¬(locations.current.map fun folder => folder.streams.remaining).any (· ≠ 0) := by
    rcases hfolder : locations.current with _ | folder
    · simp
    · rw [hfolder] at hcurrent
      have hlen := folder.length_left
      have hzero : folder.left = [] := hcurrent
      rw [hzero] at hlen
      simp [← hlen]
  rw [hrest.left rfl] at hfolders
  obtain ⟨hok, rest', hrest', hempty⟩ := hrest.finish (k := turns locations.folders) hfolders
  unfold finish
  rw [if_neg hnone]
  exact ⟨hok, ⟨rest', hrest'⟩, (hrest'.left rfl).trans hempty⟩

end StreamLocations

/-! Entries and their ordinals among those that own a stream -/

namespace Entries

variable {entries : Entries}

@[simp] theorem streamsIn_self (entries : Entries) (i : ℕ) : entries.streamsIn i i = 0 := by
  unfold streamsIn
  rw [Nat.sub_self]
  rfl

theorem streamsIn_add {i j k : ℕ} (hij : i ≤ j) (hjk : j ≤ k) :
    entries.streamsIn i k = entries.streamsIn i j + entries.streamsIn j k := by
  unfold streamsIn
  have hsum : k - i = (j - i) + (k - j) := by omega
  have hj : i + (j - i) = j := by omega
  rw [hsum, ← List.range'_append_1, List.countP_append, hj]

theorem streamsIn_succ (entries : Entries) (i : ℕ) :
    entries.streamsIn i (i + 1) = if entries.owns i then 1 else 0 := by
  unfold streamsIn
  rw [Nat.add_sub_cancel_left, List.range'_one, List.countP_singleton]

@[simp] theorem streamsIn_next (entries : Entries) (n i j : ℕ) :
    ({ entries with next := n } : Entries).streamsIn i j = entries.streamsIn i j := rfl

theorem nth_of_lt {n : ℕ} (h : n < entries.len) : entries.nth n =
    (some (entries.next + n, entries.kind (entries.next + n)),
      { entries with next := entries.next + n + 1 }) := by
  unfold len at h
  unfold nth
  rw [if_pos (by omega)]

theorem skip_of_le {n : ℕ} (h : n ≤ entries.len) : entries.skip n =
    (entries.streamsIn entries.next (entries.next + n), { entries with next := entries.next + n }) := by
  unfold len at h
  have hstop : max entries.next (min (entries.next + n) entries.count) = entries.next + n := by omega
  unfold skip
  rw [hstop]

end Entries

def EntryKind.locate {S T : Type} (kind : EntryKind S) (location : Option T) : Option (EntryKind T) :=
  match kind with
  | .file _ => location.map .file
  | .symlink _ => location.map .symlink
  | .emptyFile => some .emptyFile
  | .emptySymlink => some .emptySymlink
  | .directory => some .directory
  | .anti => some .anti

namespace FileStreams

def step (files : FileStreams) : FileStreams :=
  { files with entries := { files.entries with next := files.entries.next + 1 } }

variable {files : FileStreams}

theorem onStreams_of {α : Type} {m : Machine StreamLocations R7zError α} {result : Except R7zError α}
    {streams : StreamLocations} (h : m files.streams = (result, streams)) :
    onStreams m files = (result, { files with streams }) := by
  unfold onStreams focus
  rw [h]

theorem takeEntry_of_lt {n : ℕ} (h : n < files.len) : takeEntry n files =
    (.ok (some (files.entries.next + n, files.entries.kind (files.entries.next + n))),
      { files with entries := { files.entries with next := files.entries.next + n + 1 } }) := by
  unfold takeEntry
  rw [Entries.nth_of_lt h]

theorem next_owns (h : 0 < files.len) (howns : files.entries.owns files.entries.next = true) :
    (∃ location streams kind, StreamLocations.nth 0 files.streams = (.ok location, streams) ∧
      (files.entries.kind files.entries.next).locate (some location) = some kind ∧
      next files = (.ok (some { index := files.entries.next, kind }), { files.step with streams })) ∨
    ∃ e streams, StreamLocations.nth 0 files.streams = (.error e, streams) ∧
      next files = (.error e, { files.step with streams }) := by
  unfold Entries.owns at howns
  unfold next
  rw [bind_of_ok (takeEntry_of_lt h), Nat.add_zero]
  dsimp only
  rcases hnth : StreamLocations.nth 0 files.streams with ⟨e | location, streams⟩
  · have hstream : onStreams (StreamLocations.nth 0) files.step = (.error e, { files.step with streams }) :=
      onStreams_of hnth
    refine Or.inr ⟨e, streams, rfl, bind_of_error ?_⟩
    rcases hkind : files.entries.kind files.entries.next <;> rw [hkind] at howns
    · exact bind_of_error hstream
    · exact bind_of_error hstream
    all_goals cases howns
  · have hstream : onStreams (StreamLocations.nth 0) files.step = (.ok location, { files.step with streams }) :=
      onStreams_of hnth
    rcases hkind : files.entries.kind files.entries.next <;> rw [hkind] at howns
    · refine Or.inl ⟨location, streams, .file location, rfl, rfl, ?_⟩
      exact bind_of_ok (bind_of_ok hstream)
    · refine Or.inl ⟨location, streams, .symlink location, rfl, rfl, ?_⟩
      exact bind_of_ok (bind_of_ok hstream)
    all_goals cases howns

theorem next_owns_not (h : 0 < files.len) (howns : files.entries.owns files.entries.next = false) :
    ∃ kind, (∀ location, (files.entries.kind files.entries.next).locate location = some kind) ∧
      next files = (.ok (some { index := files.entries.next, kind }), files.step) := by
  unfold Entries.owns at howns
  unfold next
  rw [bind_of_ok (takeEntry_of_lt h), Nat.add_zero]
  dsimp only
  rcases hkind : files.entries.kind files.entries.next <;> rw [hkind] at howns
  · cases howns
  · cases howns
  all_goals exact ⟨_, fun _ => rfl, rfl⟩

def skipped (files : FileStreams) (n : ℕ) : FileStreams :=
  { files with entries := { files.entries with next := files.entries.next + n } }

def owned (files : FileStreams) (n : ℕ) : ℕ :=
  files.entries.streamsIn files.entries.next (files.entries.next + n)

theorem owned_succ (files : FileStreams) (n : ℕ) : files.owned (n + 1) =
    files.owned n + if files.entries.owns (files.entries.next + n) then 1 else 0 := by
  unfold owned
  rw [← Nat.add_assoc, Entries.streamsIn_add (Nat.le_add_right _ n) (Nat.le_succ _),
    Entries.streamsIn_succ]

theorem nth_of_le {n : ℕ} (h : n ≤ files.len) : nth n files =
    match StreamLocations.advanceBy (files.owned n) files.streams with
    | (.ok _, streams) => next { files.skipped n with streams }
    | (.error e, streams) => (.error e, { files.skipped n with streams }) := by
  have hskip : skipEntries n files = (.ok (files.owned n), files.skipped n) := by
    unfold skipEntries
    rw [Entries.skip_of_le h]
    rfl
  unfold nth
  rw [bind_of_ok hskip]
  rcases hadvance : StreamLocations.advanceBy (files.owned n) files.streams with ⟨e | u, streams⟩
  · have hstreams : onStreams (StreamLocations.advanceBy (files.owned n)) (files.skipped n) =
        (.error e, { files.skipped n with streams }) := onStreams_of hadvance
    exact bind_of_error hstreams
  · have hstreams : onStreams (StreamLocations.advanceBy (files.owned n)) (files.skipped n) =
        (.ok u, { files.skipped n with streams }) := onStreams_of hadvance
    exact bind_of_ok hstreams

/-- What a request for the `n`th of the entries to come does to the streams to come. -/
structure Gives (files : FileStreams) (n : ℕ) (file : FileStream) (after : FileStreams) : Prop where
  index : file.index = files.entries.next + n
  kind : (files.entries.kind (files.entries.next + n)).locate files.streams.left[files.owned n]? =
    some file.kind
  entries : after.entries = { files.entries with next := files.entries.next + n + 1 }
  left : after.streams.left = files.streams.left.drop (files.owned (n + 1))

structure Loses (files : FileStreams) (n : ℕ) (after : FileStreams) : Prop where
  entries : ∃ next, after.entries = { files.entries with next } ∧ files.entries.next + n ≤ next ∧
    next ≤ files.entries.next + n + 1
  left : after.streams.left = []
  short : files.streams.left.length < files.owned (n + 1)

theorem nth_outcome {n : ℕ} (h : n < files.len) :
    Outcome (fun o after => ∃ file, o = some file ∧ files.Gives n file after)
      (fun _ after => files.Loses n after) (nth n files) := by
  rw [nth_of_le h.le]
  have hadvance := StreamLocations.advanceBy_outcome (files.owned n) files.streams
  have hsucc := files.owned_succ n
  rcases hadvanceEq : StreamLocations.advanceBy (files.owned n) files.streams with ⟨e | u, streams⟩ <;>
    rw [hadvanceEq] at hadvance
  · obtain ⟨hshort, hleft⟩ := hadvance
    exact ⟨⟨_, rfl, le_rfl, Nat.le_succ _⟩, hleft, by omega⟩
  obtain ⟨hleft, hlen⟩ := hadvance
  dsimp only at hleft ⊢
  generalize hmid : ({ files.skipped n with streams } : FileStreams) = mid
  have hpos : 0 < mid.len := by
    subst hmid
    change 0 < files.entries.count - (files.entries.next + n)
    unfold len Entries.len at h
    omega
  have hmidEntries : mid.entries = { files.entries with next := files.entries.next + n } := by
    subst hmid
    rfl
  have hmidStreams : mid.streams = streams := by
    subst hmid
    rfl
  have hmidNext : mid.entries.next = files.entries.next + n := by rw [hmidEntries]
  have hmidKind : ∀ i, mid.entries.kind i = files.entries.kind i := fun i => by rw [hmidEntries]; rfl
  have hmidOwns : ∀ i, mid.entries.owns i = files.entries.owns i := fun i => by rw [hmidEntries]; rfl
  have hstepEntries : mid.step.entries = { files.entries with next := files.entries.next + n + 1 } := by
    change ({ mid.entries with next := mid.entries.next + 1 } : Entries) = _
    rw [hmidEntries]
  have hget : ∀ i, streams.left[i]? = files.streams.left[files.owned n + i]? := fun i => by
    rw [hleft, List.getElem?_drop]
  cases howns : files.entries.owns (files.entries.next + n) with
  | true =>
    rw [howns, if_pos rfl] at hsucc
    have hnth := StreamLocations.nth_outcome 0 streams
    rcases next_owns hpos (by rw [hmidOwns, hmidNext]; exact howns) with
      ⟨location, rest, kind, hrest, hkind, hnext⟩ | ⟨e, rest, hrest, hnext⟩ <;>
      rw [hmidStreams] at hrest <;> rw [hrest] at hnth <;> rw [hnext]
    · obtain ⟨hlocation, hrestLeft⟩ := hnth
      refine ⟨_, rfl, hmidNext, ?_, hstepEntries, ?_⟩
      · have hat := (hget 0).symm.trans hlocation
        rw [Nat.add_zero] at hat
        rw [hmidKind, hmidNext] at hkind
        rw [hat]
        exact hkind
      · change rest.left = _
        rw [hrestLeft, hleft, List.drop_drop, hsucc]
    · obtain ⟨hnone, hrestLeft⟩ := hnth
      refine ⟨⟨_, hstepEntries, Nat.le_succ _, le_rfl⟩, hrestLeft, ?_⟩
      rw [hleft, List.length_drop] at hnone
      omega
  | false =>
    rw [howns, if_neg Bool.false_ne_true] at hsucc
    obtain ⟨kind, hkind, hnext⟩ := next_owns_not hpos (by rw [hmidOwns, hmidNext]; exact howns)
    rw [hmidKind, hmidNext] at hkind
    rw [hnext]
    refine ⟨_, rfl, hmidNext, hkind _, hstepEntries, ?_⟩
    change mid.streams.left = _
    rw [hmidStreams, hleft, hsucc, Nat.add_zero]

theorem nth_zero (files : FileStreams) : nth 0 files = next files := by
  rw [nth_of_le (Nat.zero_le _)]
  unfold owned
  rw [Nat.add_zero, Entries.streamsIn_self]
  rfl

theorem nth_succ {n : ℕ} {o : Option FileStream} {after : FileStreams} (h : n + 1 < files.len)
    (hnext : next files = (.ok o, after)) : nth (n + 1) files = nth n after := by
  have hpos : 0 < files.len := by omega
  -- the streams of the skipped entries are those of the first and those of the rest
  have hsplit : files.owned (n + 1) =
      (if files.entries.owns files.entries.next then 1 else 0) +
        files.entries.streamsIn (files.entries.next + 1) (files.entries.next + 1 + n) := by
    unfold owned
    rw [Entries.streamsIn_add (Nat.le_succ files.entries.next) (by omega), Entries.streamsIn_succ]
    congr 2
    omega
  have hindex : files.entries.next + (n + 1) = files.entries.next + 1 + n := by omega
  rw [nth_of_le h.le]
  cases howns : files.entries.owns files.entries.next with
  | true =>
    rcases next_owns hpos howns with ⟨location, rest, kind, hrest, -, hok⟩ | ⟨e, rest, -, herror⟩
    · rw [hok] at hnext
      cases hnext
      have hlen : n ≤ ({ files.step with streams := rest } : FileStreams).len := by
        change n ≤ files.entries.count - (files.entries.next + 1)
        unfold len Entries.len at h
        omega
      have hadvance : StreamLocations.advanceBy (files.owned (n + 1)) files.streams =
          StreamLocations.advanceBy (({ files.step with streams := rest } : FileStreams).owned n) rest := by
        rw [howns, if_pos rfl] at hsplit
        rw [hsplit, StreamLocations.advanceBy_add]
        have hone : StreamLocations.advanceBy 1 files.streams = (.ok (), rest) := bind_of_ok hrest
        exact bind_of_ok hone
      rw [nth_of_le hlen, hadvance]
      unfold skipped step
      dsimp only
      rw [hindex]
    · rw [herror] at hnext
      cases hnext
  | false =>
    obtain ⟨kind, -, hok⟩ := next_owns_not hpos howns
    rw [hok] at hnext
    cases hnext
    have hlen : n ≤ files.step.len := by
      change n ≤ files.entries.count - (files.entries.next + 1)
      unfold len Entries.len at h
      omega
    have hadvance : StreamLocations.advanceBy (files.owned (n + 1)) files.streams =
        StreamLocations.advanceBy (files.step.owned n) files.step.streams := by
      rw [howns, if_neg Bool.false_ne_true, Nat.zero_add] at hsplit
      rw [hsplit]
      rfl
    rw [nth_of_le hlen, hadvance]
    unfold skipped step
    dsimp only
    rw [hindex]

end FileStreams

end R7z
