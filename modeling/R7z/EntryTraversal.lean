import R7z.EntryMapping

/-! Walks over the entries of an archive whose folders are all in order: every walk, in whatever jumps,
gives each entry the same substream, and the entries use up the substreams one by one. -/

namespace R7z

open Effect Effect.Machine Wire Wire.Parser

namespace StreamLocations

theorem hands_of_collect : ∀ {k i : ℕ} {layouts : FolderLayouts} {folders : List FolderLayout},
    layouts.turns = k → FolderLayouts.collect k layouts = .ok folders →
      Hands (some (i, layouts)) (folders.zipIdx i)
  | 0, i, layouts, folders, hk, h => by
    cases h
    cases nextFolder_cases (some (i, layouts)) with
    | ends after heq _ _ => exact .ends heq
    | fails j e after heq _ hpos => exact absurd hk (Nat.pos_iff_ne_zero.mp hpos)
    | hands j folder after heq hturns =>
      have hzero : layouts.turns = turns after + 1 := hturns
      omega
  | k + 1, i, layouts, folders, hk, h => by
    rcases FolderLayouts.collect_succ h with ⟨after, hnext, rfl⟩ | ⟨folder, after, rest, hnext, rfl, hrest⟩
    · have heq : nextFolder (some (i, layouts)) = (none, some (i, after)) := by
        rw [nextFolder, hnext]
      exact .ends heq
    · have heq : nextFolder (some (i, layouts)) = (some (i, .ok folder), some (i + 1, after)) := by
        rw [nextFolder, hnext]
      have hafter : after.turns = k := by
        cases layouts.turn with
        | ends _ heq' _ _ _ =>
          rw [hnext] at heq'
          cases heq'
        | fails _ _ heq' _ _ =>
          rw [hnext] at heq'
          cases heq'
        | hands _ _ heq' _ hturns =>
          rw [hnext] at heq'
          cases heq'
          omega
      exact .hands heq (hands_of_collect hafter hrest)

theorem collect_of_hands : ∀ {k i : ℕ} {layouts : FolderLayouts} {rest : List (FolderLayout × Nat)},
    layouts.turns = k → Hands (some (i, layouts)) rest →
      ∃ folders, FolderLayouts.collect k layouts = .ok folders
  | 0, _, _, _, _, _ => ⟨[], rfl⟩
  | k + 1, i, layouts, rest, hk, h => by
    rw [FolderLayouts.collect]
    cases layouts.turn with
    | ends after hnext _ _ _ =>
      rw [hnext]
      exact ⟨[], rfl⟩
    | fails e after hnext _ _ =>
      have heq : nextFolder (some (i, layouts)) = (some (i, .error e), some (i + 1, after)) := by
        rw [nextFolder, hnext]
      exact (h.not_fails heq).elim
    | hands folder after hnext _ hturns =>
      have heq : nextFolder (some (i, layouts)) = (some (i, .ok folder), some (i + 1, after)) := by
        rw [nextFolder, hnext]
      obtain ⟨tail, -, htail⟩ := h.cons heq
      obtain ⟨folders, hfolders⟩ := collect_of_hands (k := k) (by omega) htail
      rw [hnext]
      dsimp only
      rw [hfolders]
      exact ⟨folder :: folders, rfl⟩

/-- When a search and what comes behind it meet no failing folder, there was none before it. -/
theorem hands_of_seek : ∀ {k n : ℕ} {folders : Option (Nat × FolderLayouts)}
    {rest : List (FolderLayout × Nat)} {found : Option (FolderStreams × Nat)},
    (seek k n folders).1 = .ok found → Hands (seek k n folders).2 rest →
      ∃ rest', Hands folders rest'
  | 0, _, _, rest, _, _, h => ⟨rest, h⟩
  | k + 1, n, folders, rest, found, hok, h => by
    rw [seek] at hok h
    cases nextFolder_cases folders with
    | ends after heq _ _ => exact ⟨[], .ends heq⟩
    | fails i e after heq _ _ =>
      rw [heq] at hok
      cases hok
    | hands i folder after heq _ =>
      rw [heq] at hok h
      dsimp only at hok h
      by_cases hlt : n < folder.substreams.remaining
      · rw [if_pos hlt] at h
        exact ⟨_, .hands heq h⟩
      · rw [if_neg hlt] at hok h
        obtain ⟨rest', hrest'⟩ := hands_of_seek hok h
        exact ⟨_, .hands heq hrest'⟩

theorem clean_of_nth {n : ℕ} {locations after : StreamLocations} {location : StreamLocation}
    (h : nth n locations = (.ok location, after)) (hafter : after.Clean) : locations.Clean := by
  obtain ⟨rest, hrest⟩ := hafter
  unfold nth at h
  rcases hlocate : locations.locate n with ⟨e | _ | ⟨folder, m⟩, folders⟩ <;> rw [hlocate] at h
  · cases h
  · cases h
  · dsimp only at h
    rcases hnth : folder.streams.nth m with ⟨_ | stream, streams⟩ <;> rw [hnth] at h <;> cases h
    unfold locate at hlocate
    rcases hcurrent : locations.current with _ | current <;> rw [hcurrent] at hlocate
    · dsimp only at hlocate
      exact hands_of_seek (congrArg Prod.fst hlocate) (by rw [hlocate]; exact hrest)
    · dsimp only at hlocate
      by_cases hlt : n < current.streams.remaining
      · rw [if_pos hlt] at hlocate
        cases hlocate
        exact ⟨rest, hrest⟩
      · rw [if_neg hlt] at hlocate
        exact hands_of_seek (congrArg Prod.fst hlocate) (by rw [hlocate]; exact hrest)

theorem hands_of_finish : ∀ {k : ℕ} {folders : Option (Nat × FolderLayouts)}, turns folders = k →
    (finishFolders k folders).1 = .ok () → ∃ rest, Hands folders rest
  | 0, folders, hk, _ => by
    cases nextFolder_cases folders with
    | ends after heq _ _ => exact ⟨[], .ends heq⟩
    | fails i e after heq _ hpos => exact absurd hk (Nat.pos_iff_ne_zero.mp hpos)
    | hands i folder after heq hturns =>
      rw [hk] at hturns
      cases hturns
  | k + 1, folders, hk, hok => by
    rw [finishFolders] at hok
    cases nextFolder_cases folders with
    | ends after heq _ _ => exact ⟨[], .ends heq⟩
    | fails i e after heq _ _ =>
      rw [heq] at hok
      cases hok
    | hands i folder after heq hturns =>
      rw [heq] at hok
      dsimp only at hok
      rcases hnext : folder.substreams.next with _ | stream <;> rw [hnext] at hok
      · obtain ⟨rest, hrest⟩ := hands_of_finish (by omega) hok
        exact ⟨_, .hands heq hrest⟩
      · cases hok

theorem clean_of_finish {locations after : StreamLocations}
    (h : finish locations = (.ok (), after)) : locations.Clean := by
  unfold finish at h
  split at h
  · cases h
  · exact hands_of_finish rfl (congrArg Prod.fst h)

theorem length_substreamsOf (folders : List FolderLayout) : ∀ i : ℕ,
    (substreamsOf (folders.zipIdx i)).length = (folders.map fun folder => folder.layout.len).sum := by
  induction folders with
  | nil => exact fun _ => rfl
  | cons folder folders ih =>
    intro i
    change ((openFolder i folder).left ++ substreamsOf (folders.zipIdx (i + 1))).length = _
    rw [List.length_append, ih, FolderStreams.length_left, List.map_cons, List.sum_cons]
    rfl

end StreamLocations

/-- All folders of an archive, up to the first that fails, and the check behind the last. -/
def StreamInfo.folderList (streams : Option StreamInfo) : Except R7zError (List FolderLayout) := do
  match ← StreamInfo.layouts? streams with
  | none => return []
  | some layouts => layouts.toList

/-- The substreams of an archive: folder by folder, and in each folder one by one. -/
def folderSubstreams (folders : List FolderLayout) : List StreamLocation :=
  StreamLocations.substreamsOf folders.zipIdx

namespace FileStreams

/-- How far the walk is: behind the substreams of the entries that have gone by. -/
structure Follows (all : List StreamLocation) (files : FileStreams) : Prop where
  clean : files.streams.Clean
  le : files.entries.next ≤ files.entries.count
  total : files.entries.streamsIn 0 files.entries.count = all.length
  left : files.streams.left = all.drop (files.entries.streamsIn 0 files.entries.next)

variable {all : List StreamLocation} {files : FileStreams}

theorem Follows.owned_le (h : files.Follows all) {n : ℕ} (hn : n ≤ files.len) :
    files.owned n ≤ files.streams.left.length := by
  have hle := h.le
  have htotal := h.total
  unfold len Entries.len at hn
  have hsplit := @Entries.streamsIn_add files.entries 0 files.entries.next (files.entries.next + n)
    (Nat.zero_le _) (by omega)
  have hrest := @Entries.streamsIn_add files.entries 0 (files.entries.next + n) files.entries.count
    (Nat.zero_le _) (by omega)
  unfold owned
  rw [h.left, List.length_drop]
  omega

theorem nth_clean (n : ℕ) (h : files.streams.Clean) (hn : n < files.len) :
    (nth n files).2.streams.Clean := by
  have hadvance := StreamLocations.advanceBy_clean (files.owned n) h
  rw [nth_of_le hn.le]
  rcases hstreams : StreamLocations.advanceBy (files.owned n) files.streams with ⟨e | u, streams⟩ <;>
    rw [hstreams] at hadvance
  · exact hadvance
  dsimp only
  generalize hmid : ({ files.skipped n with streams } : FileStreams) = mid
  have hpos : 0 < mid.len := by
    subst hmid
    change 0 < files.entries.count - (files.entries.next + n)
    unfold len Entries.len at hn
    omega
  have hmidClean : mid.streams.Clean := by
    subst hmid
    exact hadvance
  have hnth := StreamLocations.nth_clean 0 hmidClean
  cases howns : mid.entries.owns mid.entries.next with
  | true =>
    rcases next_owns hpos howns with ⟨_, _, _, hrest, -, hnext⟩ | ⟨_, _, hrest, hnext⟩ <;>
      rw [hrest] at hnth <;> rw [hnext] <;> exact hnth
  | false =>
    obtain ⟨_, -, hnext⟩ := next_owns_not hpos howns
    rw [hnext]
    exact hmidClean

theorem Follows.nth (h : files.Follows all) {n : ℕ} (hn : n < files.len) :
    ∃ file after, FileStreams.nth n files = (.ok (some file), after) ∧
      file.index = files.entries.next + n ∧
      (files.entries.kind (files.entries.next + n)).locate
        all[files.entries.streamsIn 0 (files.entries.next + n)]? = some file.kind ∧
      after.entries = { files.entries with next := files.entries.next + n + 1 } ∧
      after.Follows all := by
  have houtcome := nth_outcome hn
  have hclean := nth_clean n h.clean hn
  have hsplit : ∀ m, files.entries.streamsIn 0 (files.entries.next + m) =
      files.entries.streamsIn 0 files.entries.next + files.owned m :=
    fun m => Entries.streamsIn_add (Nat.zero_le _) (Nat.le_add_right _ _)
  rcases hnth : FileStreams.nth n files with ⟨e | o, after⟩ <;> rw [hnth] at houtcome hclean
  · have hle := h.owned_le (Nat.succ_le_of_lt hn)
    exact absurd houtcome.short (Nat.not_lt.mpr hle)
  · obtain ⟨file, rfl, hgives⟩ := houtcome
    refine ⟨file, after, rfl, hgives.index, ?_, hgives.entries, hclean, ?_, ?_, ?_⟩
    · have hkind := hgives.kind
      rwa [h.left, List.getElem?_drop, ← hsplit] at hkind
    · have hle := h.le
      unfold len Entries.len at hn
      rw [hgives.entries]
      dsimp only
      omega
    · rw [hgives.entries]
      exact h.total
    · rw [hgives.left, h.left, List.drop_drop, hgives.entries, ← hsplit]
      rfl

theorem Follows.nth_end (h : files.Follows all) {n : ℕ} (hn : files.len ≤ n) :
    ∃ after, FileStreams.nth n files = (.ok none, after) ∧
      after.entries = { files.entries with next := files.entries.count } ∧ after.Follows all := by
  have hle := h.le
  have hstop : max files.entries.next (min (files.entries.next + n) files.entries.count) =
      files.entries.count := by
    unfold len Entries.len at hn
    omega
  have hlast : files.entries.next + files.len = files.entries.count := by
    unfold len Entries.len
    omega
  -- the skip goes to the end, and over all the streams that are left
  have hskip : skipEntries n files = (.ok (files.owned files.len), files.skipped files.len) := by
    unfold skipEntries Entries.skip owned skipped
    rw [hstop, hlast]
  have howned := h.owned_le le_rfl
  have hadvance := StreamLocations.advanceBy_outcome (files.owned files.len) files.streams
  have hclean := StreamLocations.advanceBy_clean (files.owned files.len) h.clean
  unfold FileStreams.nth
  rw [bind_of_ok hskip]
  rcases hstreams : StreamLocations.advanceBy (files.owned files.len) files.streams with ⟨e | u, streams⟩ <;>
    rw [hstreams] at hadvance hclean
  · exact absurd hadvance.1 (Nat.not_lt.mpr howned)
  have hon : onStreams (StreamLocations.advanceBy (files.owned files.len)) (files.skipped files.len) =
      (.ok u, { files.skipped files.len with streams }) := onStreams_of hstreams
  rw [bind_of_ok hon]
  generalize hmid : ({ files.skipped files.len with streams } : FileStreams) = mid
  have hentries : mid.entries = { files.entries with next := files.entries.count } := by
    subst hmid
    change ({ files.entries with next := files.entries.next + files.len } : Entries) = _
    rw [hlast]
  have hmidStreams : mid.streams = streams := by
    subst hmid
    rfl
  have hnone : mid.streams.left = [] := by
    have htotal := h.total
    have hsplit := @Entries.streamsIn_add files.entries 0 files.entries.next files.entries.count
      (Nat.zero_le _) hle
    have hall : files.streams.left.length ≤ files.owned files.len := by
      unfold owned
      rw [hlast, h.left, List.length_drop]
      omega
    rw [hmidStreams, hadvance.1, List.drop_eq_nil_iff.mpr hall]
  -- nothing is left over, so finishing finds no fault
  obtain ⟨hok, hfinishClean, hfinishLeft⟩ := StreamLocations.finish_clean (hmidStreams ▸ hclean) hnone
  rcases hfinish : StreamLocations.finish mid.streams with ⟨e | u, rest⟩ <;>
    rw [hfinish] at hok hfinishClean hfinishLeft
  · cases hok
  have htake : takeEntry 0 mid = (.ok none, mid) := by
    have hnot : ¬mid.entries.next + 0 < mid.entries.count := by
      rw [hentries]
      exact lt_irrefl _
    have hsame : ({ mid.entries with next := mid.entries.count } : Entries) = mid.entries := by
      rw [hentries]
    unfold takeEntry Entries.nth
    rw [if_neg hnot, hsame]
  have honFinish : onStreams StreamLocations.finish mid = (.ok u, { mid with streams := rest }) :=
    onStreams_of hfinish
  refine ⟨{ mid with streams := rest }, ?_, hentries, hfinishClean, ?_, ?_, ?_⟩
  · unfold next
    rw [bind_of_ok htake]
    exact bind_of_ok honFinish
  · rw [hentries]
  · rw [hentries]
    exact h.total
  · rw [hentries]
    have htotal := h.total
    change rest.left = all.drop (files.entries.streamsIn 0 files.entries.count)
    rw [hfinishLeft, htotal, List.drop_length]

/-- What every jump preserves, to an entry or past the last. -/
theorem Follows.after_nth (h : files.Follows all) (n : ℕ) : (FileStreams.nth n files).2.Follows all := by
  rcases Nat.lt_or_ge n files.len with hlt | hge
  · obtain ⟨file, after, hnth, -, -, -, hafter⟩ := h.nth hlt
    rw [hnth]
    exact hafter
  · obtain ⟨after, hnth, -, hafter⟩ := h.nth_end hge
    rw [hnth]
    exact hafter

def nexts : ℕ → Machine FileStreams R7zError Unit
  | 0 => pure ()
  | n + 1 => do
    let _ ← next
    nexts n

theorem Follows.nth_eq_nexts {n : ℕ} : ∀ {files : FileStreams}, files.Follows all → n < files.len →
    FileStreams.nth n files = (nexts n >>= fun _ => next) files := by
  induction n with
  | zero => exact fun _ _ => nth_zero _
  | succ n ih =>
    intro files h hn
    obtain ⟨file, after, hnext, -, -, hentries, hafter⟩ := h.nth (Nat.zero_lt_of_lt hn)
    rw [nth_zero] at hnext
    have hlen : n < after.len := by
      unfold len Entries.len at hn ⊢
      rw [hentries]
      dsimp only
      omega
    rw [nth_succ hn hnext, ih hafter hlen, nexts]
    simp only [Machine.bind_apply]
    rw [hnext]

def entryAt (all : List StreamLocation) (entries : Entries) (i : ℕ) : Option FileStream :=
  ((entries.kind i).locate all[entries.streamsIn 0 i]?).map fun kind => { index := i, kind }

/-- The entries of the walk, one by one. -/
structure Lists (all : List StreamLocation) (files : FileStreams) (entries : List FileStream) :
    Prop where
  each : entries.map some =
    (List.range' files.entries.next files.len).map (entryAt all files.entries)
  walk : ∀ {T : Type} (map : FileStream → Except R7zError T),
    mapRest map (files.len + 1) files = entries.map map
  streams : entries.filterMap (fun file => file.kind.stream?) =
    all.drop (files.entries.streamsIn 0 files.entries.next)

theorem locate_stream {S : Type} {kind : EntryKind Unit} {location : Option S} {bound : EntryKind S}
    (h : kind.locate location = some bound) :
    bound.stream? = if kind.hasStream then location else none := by
  cases kind <;> cases location <;> cases h <;> rfl

theorem Follows.lists {n : ℕ} : ∀ {files : FileStreams}, files.len = n → files.Follows all →
    ∃ entries, files.Lists all entries := by
  induction n with
  | zero =>
    intro files hlen h
    obtain ⟨after, hnext, -, -⟩ := h.nth_end hlen.le
    rw [nth_zero] at hnext
    refine ⟨[], ?_, ?_, ?_⟩
    · rw [hlen]
      rfl
    · intro T map
      rw [mapRest, hnext]
      rfl
    · have hle := h.le
      have hend : files.entries.next = files.entries.count := by
        unfold len Entries.len at hlen
        omega
      rw [hend, h.total, List.drop_length]
      rfl
  | succ n ih =>
    intro files hlen h
    obtain ⟨file, after, hnext, hindex, hkind, hentries, hafter⟩ := h.nth (Nat.lt_of_lt_of_eq (Nat.succ_pos n) hlen.symm)
    rw [nth_zero] at hnext
    rw [Nat.add_zero] at hindex hkind
    have hafterLen : after.len = n := by
      unfold len Entries.len at hlen ⊢
      rw [hentries]
      dsimp only
      omega
    have hafterNext : after.entries.next = files.entries.next + 1 := by rw [hentries]
    -- what stands at a place does not depend on how far the walk is
    have hat : ∀ i, entryAt all after.entries i = entryAt all files.entries i := fun i => by
      rw [hentries]
      rfl
    have hstreamsIn : ∀ i j, after.entries.streamsIn i j = files.entries.streamsIn i j := fun i j => by
      rw [hentries]
      rfl
    obtain ⟨entries, hrest⟩ := ih hafterLen hafter
    refine ⟨file :: entries, ?_, ?_, ?_⟩
    · have hfile : entryAt all files.entries files.entries.next = some file := by
        unfold entryAt
        rw [hkind, Option.map_some, ← hindex]
      rw [List.map_cons, hrest.each, hlen, List.range'_succ, List.map_cons, hfile, hafterLen, hafterNext]
      exact congrArg _ (List.map_congr_left fun i _ => hat i)
    · intro T map
      have hwalk := hrest.walk map
      rw [hafterLen] at hwalk
      rw [hlen, mapRest, hnext, List.map_cons]
      exact congrArg _ hwalk
    · have hstep := @Entries.streamsIn_add files.entries 0 files.entries.next (files.entries.next + 1)
        (Nat.zero_le _) (Nat.le_succ _)
      rw [Entries.streamsIn_succ] at hstep
      have hstream := locate_stream hkind
      have hrestStreams := hrest.streams
      rw [hstreamsIn, hafterNext] at hrestStreams
      -- an entry with a stream takes the first of those that are left
      cases howns : files.entries.owns files.entries.next with
      | true =>
        rw [howns, if_pos rfl] at hstep
        unfold Entries.owns at howns
        rw [howns, if_pos rfl] at hstream
        have hlt : files.entries.streamsIn 0 files.entries.next < all.length := by
          have htotal := h.total
          have hcount := @Entries.streamsIn_add files.entries 0 (files.entries.next + 1)
            files.entries.count (Nat.zero_le _) (by unfold len Entries.len at hlen; omega)
          omega
        rw [List.getElem?_eq_getElem hlt] at hstream
        rw [List.filterMap_cons, hstream, hrestStreams, hstep, List.drop_eq_getElem_cons hlt]
      | false =>
        rw [howns, if_neg Bool.false_ne_true] at hstep
        unfold Entries.owns at howns
        rw [howns, if_neg Bool.false_ne_true] at hstream
        rw [List.filterMap_cons, hstream, hrestStreams, hstep, Nat.add_zero]

theorem Lists.getElem? {entries : List FileStream} (h : files.Lists all entries) {i : ℕ}
    (hzero : files.entries.next = 0) (hi : i < files.len) :
    ∃ file, entries[i]? = some file ∧ entryAt all files.entries i = some file := by
  have heach : (entries.map some)[i]? =
      ((List.range' files.entries.next files.len).map (entryAt all files.entries))[i]? := by
    rw [h.each]
  rw [List.getElem?_map, List.getElem?_map, List.getElem?_range' hi, hzero, Nat.zero_add,
    Nat.one_mul] at heach
  cases hfile : entries[i]? with
  | none =>
    rw [hfile] at heach
    cases heach
  | some file =>
    rw [hfile] at heach
    exact ⟨file, rfl, (Option.some.inj heach).symm⟩

theorem Follows.mapSelected {T : Type} (map : FileStream → Except R7zError T) :
    ∀ {indices : List ℕ} {files : FileStreams}, files.Follows all → indices.Pairwise (· < ·) →
      (∀ i ∈ indices, files.entries.next ≤ i ∧ i < files.entries.count) →
      (FileStreams.mapSelected map indices files).map some =
        indices.map fun i => (entryAt all files.entries i).map map
  | [], _, _, _, _ => rfl
  | i :: indices, files, h, hsorted, hbounds => by
    obtain ⟨hfirst, hrest⟩ := List.pairwise_cons.mp hsorted
    obtain ⟨hle, hlt⟩ := hbounds i List.mem_cons_self
    have hlen : i - files.entries.next < files.len := by
      unfold len Entries.len
      omega
    have hindex : files.entries.next + (i - files.entries.next) = i := by omega
    obtain ⟨file, after, hnth, hfileIndex, hkind, hentries, hafter⟩ := h.nth hlen
    rw [hindex] at hfileIndex hkind hentries
    have hselect : select map i files = (map file, after) := by
      unfold select
      change (if i < files.entries.next then Machine.fail R7zError.parse else _) files = _
      rw [if_neg (Nat.not_lt.mpr hle), bind_of_ok hnth]
      rfl
    have hfile : entryAt all files.entries i = some file := by
      unfold entryAt
      rw [hkind, Option.map_some, ← hfileIndex]
    have hat : ∀ j, entryAt all after.entries j = entryAt all files.entries j := fun j => by
      rw [hentries]
      rfl
    have htail := Follows.mapSelected map hafter hrest (fun j hj => by
      have hji := hfirst j hj
      have hjlt := (hbounds j (List.mem_cons_of_mem _ hj)).2
      rw [hentries]
      exact ⟨hji, hjlt⟩)
    unfold FileStreams.mapSelected at htail ⊢
    rw [runAll, hselect, List.map_cons, htail, List.map_cons, hfile]
    exact congrArg _ (List.map_congr_left fun j _ => by rw [hat])

theorem clean_of_walk {n : ℕ} : ∀ {files : FileStreams}, files.len = n →
    (∀ result ∈ mapRest (fun file => .ok file) (n + 1) files, ∃ file, result = .ok file) →
      files.streams.Clean := by
  induction n with
  | zero =>
    intro files hlen h
    have htake : takeEntry 0 files =
        (.ok none, { files with entries := { files.entries with next := files.entries.count } }) := by
      unfold takeEntry Entries.nth
      unfold len Entries.len at hlen
      rw [if_neg (by omega)]
    rw [mapRest] at h
    unfold next at h
    rw [bind_of_ok htake] at h
    dsimp only at h
    rcases hfinish : StreamLocations.finish files.streams with ⟨e | u, rest⟩
    · have hon : onStreams StreamLocations.finish
          { files with entries := { files.entries with next := files.entries.count } } =
            (.error e, { files with
              entries := { files.entries with next := files.entries.count }, streams := rest }) :=
        onStreams_of hfinish
      rw [bind_of_error hon] at h
      obtain ⟨file, hfile⟩ := h (.error e) List.mem_cons_self
      cases hfile
    · exact StreamLocations.clean_of_finish hfinish
  | succ n ih =>
    intro files hlen h
    have hpos : 0 < files.len := by omega
    rw [mapRest] at h
    -- an entry that cannot be had would be an error in the walk
    cases howns : files.entries.owns files.entries.next with
    | true =>
      rcases next_owns hpos howns with ⟨location, rest, kind, hrest, -, hnext⟩ | ⟨e, rest, -, hnext⟩ <;>
        rw [hnext] at h
      · have hstep : ({ files.step with streams := rest } : FileStreams).len = n := by
          change files.entries.count - (files.entries.next + 1) = n
          unfold len Entries.len at hlen
          omega
        have hrestClean : rest.Clean := @ih { files.step with streams := rest } hstep
          fun result hresult => h result (List.mem_cons_of_mem _ hresult)
        exact StreamLocations.clean_of_nth hrest hrestClean
      · obtain ⟨file, hfile⟩ := h (.error e) List.mem_cons_self
        cases hfile
    | false =>
      obtain ⟨kind, -, hnext⟩ := next_owns_not hpos howns
      rw [hnext] at h
      have hstep : files.step.len = n := by
        change files.entries.count - (files.entries.next + 1) = n
        unfold len Entries.len at hlen
        omega
      exact @ih files.step hstep fun result hresult => h result (List.mem_cons_of_mem _ hresult)

end FileStreams

/-! Selections -/

namespace EntrySelection

theorem strict_of_sorted : ∀ {indices : List ℕ}, indices.Pairwise (· ≤ ·) →
    hasDuplicate indices = false → indices.Pairwise (· < ·)
  | [], _, _ => List.Pairwise.nil
  | [i], _, _ => List.pairwise_singleton _ i
  | i :: j :: indices, hsorted, hdistinct => by
    obtain ⟨hfirst, hrest⟩ := List.pairwise_cons.mp hsorted
    unfold hasDuplicate at hdistinct
    rw [List.tail_cons, List.zip_cons_cons, List.any_cons, Bool.or_eq_false_iff] at hdistinct
    have hne : i ≠ j := of_decide_eq_false hdistinct.1
    have hlt : i < j := Nat.lt_of_le_of_ne (hfirst j List.mem_cons_self) hne
    have htail := strict_of_sorted hrest hdistinct.2
    refine List.pairwise_cons.mpr ⟨fun k hk => ?_, htail⟩
    rcases List.mem_cons.mp hk with rfl | hk
    · exact hlt
    · exact hlt.trans ((List.pairwise_cons.mp htail).1 k hk)

theorem sorted_pairwise (indices : List ℕ) : (sorted indices).Pairwise (· ≤ ·) := by
  unfold sorted
  split
  · assumption
  · exact List.pairwise_mergeSort' _ _

theorem mem_sorted {indices : List ℕ} {i : ℕ} : i ∈ sorted indices ↔ i ∈ indices := by
  unfold sorted
  split
  · exact Iff.rfl
  · exact List.mem_mergeSort

theorem indices_of_new {requested : Option (List ℕ)} {count : ℕ} {selection : EntrySelection}
    (h : EntrySelection.new requested count = .ok selection) :
    selection.indices.Pairwise (· < ·) ∧ ∀ i ∈ selection.indices, i < count := by
  unfold EntrySelection.new at h
  split at h
  · cases h
    refine ⟨List.pairwise_lt_range', fun i hi => ?_⟩
    have hmem := List.mem_range'_1.mp hi
    omega
  · cases h
    exact ⟨List.Pairwise.nil, fun i hi => absurd hi List.not_mem_nil⟩
  · rename_i indices _
    split at h
    · cases h
    rename_i hbounds
    split at h
    · cases h
    rename_i hdistinct
    cases h
    refine ⟨strict_of_sorted (sorted_pairwise indices) (Bool.eq_false_iff.mpr hdistinct), fun i hi => ?_⟩
    by_contra hge
    exact hbounds (List.any_eq_true.mpr
      ⟨i, mem_sorted.mp hi, decide_eq_true (Nat.not_lt.mp hge)⟩)

end EntrySelection

/-! From the header's tables -/

namespace FileStreams

variable {files : Option FilesInfo} {numFiles : ℕ} {streams : Option StreamInfo} {start : FileStreams}

theorem new_eq_ok (h : FileStreams.new files numFiles streams = .ok start) :
    ∃ layouts, StreamInfo.layouts? streams = .ok layouts ∧
      (layouts.map FolderLayouts.streamCount).getD 0 = (Entries.new files numFiles).streamCount ∧
      start.entries = Entries.new files numFiles ∧
      start.streams = { folders := layouts.map fun layouts => (0, layouts), current := none } := by
  unfold FileStreams.new at h
  obtain ⟨layouts, hlayouts, h⟩ := except_bind_eq_ok.mp h
  split at h
  · cases h
  · rename_i hcount
    cases h
    exact ⟨layouts, hlayouts, not_not.mp hcount, rfl, rfl⟩

theorem forStreams_of_layouts {layouts : FolderLayouts}
    (h : StreamInfo.layouts? streams = .ok (some layouts)) :
    ∃ info, streams = some info ∧ FolderLayouts.forStreams info = .ok layouts := by
  unfold StreamInfo.layouts? at h
  split at h
  · cases h
  · rename_i info
    split at h
    · obtain ⟨layouts', hlayouts, h⟩ := except_bind_eq_ok.mp h
      cases h
      exact ⟨info, rfl, hlayouts⟩
    · cases h

theorem turns_of_forStreams {info : StreamInfo} {layouts : FolderLayouts}
    (h : FolderLayouts.forStreams info = .ok layouts) :
    layouts.turns = layouts.plans.unpackInfo.numFoldersUsize + 1 := by
  obtain ⟨pack, unpack, -, -, hplans, -, -, -⟩ := FolderLayouts.forStreams_eq_ok h
  have hfinished : layouts.plans.finished = false := by rw [hplans]; rfl
  have hindex : layouts.plans.folderIndex = 0 := by rw [hplans]; rfl
  unfold FolderLayouts.turns
  rw [hfinished, if_neg Bool.false_ne_true, hindex, Nat.sub_zero]

theorem length_folderSubstreams {layouts : Option FolderLayouts} {folders : List FolderLayout}
    (hlayouts : StreamInfo.layouts? streams = .ok layouts)
    (h : StreamInfo.folderList streams = .ok folders) :
    (folderSubstreams folders).length = (layouts.map FolderLayouts.streamCount).getD 0 := by
  unfold StreamInfo.folderList at h
  rw [hlayouts] at h
  rcases layouts with _ | layouts
  · cases h
    rfl
  · obtain ⟨info, -, hfor⟩ := forStreams_of_layouts hlayouts
    exact (StreamLocations.length_substreamsOf folders 0).trans (FolderLayouts.streamCount_eq hfor h)

theorem follows_of_new {folders : List FolderLayout}
    (h : FileStreams.new files numFiles streams = .ok start)
    (hfolders : StreamInfo.folderList streams = .ok folders) :
    start.Follows (folderSubstreams folders) := by
  obtain ⟨layouts, hlayouts, hcount, hentries, hstreams⟩ := new_eq_ok h
  have hlength := length_folderSubstreams hlayouts hfolders
  have hhands : StreamLocations.Hands (layouts.map fun layouts => (0, layouts)) folders.zipIdx := by
    unfold StreamInfo.folderList at hfolders
    rw [hlayouts] at hfolders
    rcases layouts with _ | layouts
    · cases hfolders
      exact .ends rfl
    · obtain ⟨info, -, hfor⟩ := forStreams_of_layouts hlayouts
      exact StreamLocations.hands_of_collect (turns_of_forStreams hfor) hfolders
  refine ⟨⟨_, by rw [hstreams]; exact hhands⟩, ?_, ?_, ?_⟩
  · rw [hentries]
    exact Nat.zero_le _
  · rw [hlength, hcount, hentries]
    rfl
  · rw [hentries, hstreams]
    change [] ++ StreamLocations.foldersLeft _ _ = (folderSubstreams folders).drop
      ((Entries.new files numFiles).streamsIn 0 0)
    rw [Entries.streamsIn_self, List.drop_zero, List.nil_append, hhands.left rfl]
    rfl

theorem folderList_of_clean (h : FileStreams.new files numFiles streams = .ok start)
    (hclean : start.streams.Clean) : ∃ folders, StreamInfo.folderList streams = .ok folders := by
  obtain ⟨layouts, hlayouts, -, -, hstreams⟩ := new_eq_ok h
  obtain ⟨rest, hrest⟩ := hclean
  unfold StreamInfo.folderList
  rw [hlayouts]
  rw [hstreams] at hrest
  rcases layouts with _ | layouts
  · exact ⟨[], rfl⟩
  · obtain ⟨info, -, hfor⟩ := forStreams_of_layouts hlayouts
    exact StreamLocations.collect_of_hands (turns_of_forStreams hfor) hrest

/-- The entries of an archive, each with its own substream, whichever way they are walked over. -/
structure MapsInOrder (start : FileStreams) (all : List StreamLocation) (entries : List FileStream) :
    Prop where
  indices : entries.map FileStream.index = List.range start.len
  kinds : ∀ file ∈ entries, ∃ location,
    (start.entries.kind file.index).locate location = some file.kind
  streams : entries.filterMap (fun file => file.kind.stream?) = all
  walk : ∀ {T : Type} (map : FileStream → Except R7zError T), start.mapAll map = entries.map map
  selects : ∀ {T : Type} (map : FileStream → Except R7zError T) (requested : Option (List ℕ))
    (selection : EntrySelection), EntrySelection.new requested start.len = .ok selection →
      (start.mapSelected map selection.indices).map some =
        selection.indices.map fun i => entries[i]?.map map
  jumps : ∀ (requests : List ℕ) (n : ℕ), n < (runAll FileStreams.nth requests start).2.len →
    FileStreams.nth n (runAll FileStreams.nth requests start).2 =
      (nexts n >>= fun _ => next) (runAll FileStreams.nth requests start).2

theorem Follows.mapsInOrder {all : List StreamLocation} (h : start.Follows all)
    (hzero : start.entries.next = 0) : ∃ entries, start.MapsInOrder all entries := by
  obtain ⟨entries, hlists⟩ := Follows.lists rfl h
  have hcount : start.entries.count = start.len := by
    unfold len Entries.len
    omega
  have heach : ∀ i < start.len, ∃ file, entries[i]? = some file ∧
      entryAt all start.entries i = some file := fun i hi => hlists.getElem? hzero hi
  have hlength : entries.length = start.len := by
    have hmap := congrArg List.length hlists.each
    rwa [List.length_map, List.length_map, List.length_range'] at hmap
  have hat : ∀ i file, entries[i]? = some file → file.index = i ∧ ∃ location,
      (start.entries.kind i).locate location = some file.kind := by
    intro i file hfile
    obtain ⟨hi, -⟩ := List.getElem?_eq_some_iff.mp hfile
    obtain ⟨file', hfile', hentry⟩ := heach i (hlength ▸ hi)
    rw [hfile] at hfile'
    cases hfile'
    unfold entryAt at hentry
    obtain ⟨kind, hkind, rfl⟩ := Option.map_eq_some_iff.mp hentry
    exact ⟨rfl, _, hkind⟩
  refine ⟨entries, ?_, ?_, ?_, hlists.walk, ?_, ?_⟩
  · apply List.ext_getElem?
    intro i
    rw [List.getElem?_map]
    rcases Nat.lt_or_ge i start.len with hlt | hge
    · obtain ⟨file, hfile, -⟩ := heach i hlt
      rw [hfile, List.getElem?_range hlt, Option.map_some, (hat i file hfile).1]
    · rw [List.getElem?_eq_none (hlength ▸ hge), List.getElem?_eq_none (by rwa [List.length_range])]
      rfl
  · intro file hfile
    obtain ⟨i, hi⟩ := List.mem_iff_getElem?.mp hfile
    obtain ⟨hindex, hkind⟩ := hat i file hi
    rw [hindex]
    exact hkind
  · rw [hlists.streams, hzero, Entries.streamsIn_self, List.drop_zero]
  · intro T map requested selection hselection
    obtain ⟨hsorted, hbounds⟩ := EntrySelection.indices_of_new hselection
    rw [h.mapSelected map hsorted fun i hi => by rw [hzero, hcount]; exact ⟨Nat.zero_le _, hbounds i hi⟩]
    refine List.map_congr_left fun i hi => ?_
    obtain ⟨file, hfile, hentry⟩ := heach i (hbounds i hi)
    rw [hfile, hentry]
  · intro requests n hn
    have hreached : (runAll FileStreams.nth requests start).2.Follows all :=
      runAll_preserves (I := Follows all) (fun m s hs => Follows.after_nth hs m) requests h
    exact Follows.nth_eq_nexts hreached hn

theorem mapsInOrder_of_walk (hnew : FileStreams.new files numFiles streams = .ok start)
    (hwalk : ∀ result ∈ start.mapAll fun file => .ok file, ∃ file, result = .ok file) :
    ∃ folders entries, StreamInfo.folderList streams = .ok folders ∧
      start.MapsInOrder (folderSubstreams folders) entries := by
  obtain ⟨folders, hfolders⟩ := folderList_of_clean hnew (clean_of_walk rfl hwalk)
  obtain ⟨-, -, -, hentries, -⟩ := new_eq_ok hnew
  obtain ⟨entries, hmaps⟩ := (follows_of_new hnew hfolders).mapsInOrder (by rw [hentries]; rfl)
  exact ⟨folders, entries, hfolders, hmaps⟩

/-- Each entry that owns a stream is given the next substream in folder order, in a walk, in a selection
and behind any jumps; and a header with more or fewer substreams than such entries is refused. -/
theorem fileStreams_mapsInOrder (files : Option FilesInfo) (numFiles : ℕ) (streams : Option StreamInfo) :
    (∀ layouts, StreamInfo.layouts? streams = .ok layouts →
      (layouts.map FolderLayouts.streamCount).getD 0 ≠ (Entries.new files numFiles).streamCount →
        FileStreams.new files numFiles streams = .error .parse) ∧
    (∀ folders, StreamInfo.folderList streams = .ok folders →
      (folderSubstreams folders).length ≠ (Entries.new files numFiles).streamCount →
        FileStreams.new files numFiles streams = .error .parse) ∧
    ∀ start, FileStreams.new files numFiles streams = .ok start →
      (∀ result ∈ start.mapAll fun file => .ok file, ∃ file, result = .ok file) →
        ∃ folders entries, StreamInfo.folderList streams = .ok folders ∧
          start.MapsInOrder (folderSubstreams folders) entries := by
  have hdeclared : ∀ layouts, StreamInfo.layouts? streams = .ok layouts →
      (layouts.map FolderLayouts.streamCount).getD 0 ≠ (Entries.new files numFiles).streamCount →
        FileStreams.new files numFiles streams = .error .parse := by
    intro layouts hlayouts hcount
    unfold FileStreams.new
    rw [hlayouts]
    exact if_pos hcount
  refine ⟨hdeclared, ?_, ?_⟩
  · intro folders hfolders hcount
    have hsome : ∃ layouts, StreamInfo.layouts? streams = .ok layouts := by
      obtain ⟨layouts, hlayouts, -⟩ := except_bind_eq_ok.mp hfolders
      exact ⟨layouts, hlayouts⟩
    obtain ⟨layouts, hlayouts⟩ := hsome
    rw [length_folderSubstreams hlayouts hfolders] at hcount
    exact hdeclared layouts hlayouts hcount
  · exact fun start hnew hwalk => mapsInOrder_of_walk hnew hwalk

/-- Three Copy folders with no, one and two substreams. -/
def mixedStreams : StreamInfo :=
  { packInfo := some { packPos := 0, numPackStreams := 3, packSize := [0, 2, 3], digests := [] }
    unpackInfo := some { numFolders := 3, folderData := [1, 1, 0, 1, 1, 0, 1, 1, 0]
                         folderOffsets := [0, 3, 6, 9], unpackSizes := [0, 2, 3], digests := [] }
    substreamInfo := some { numUnpackStreamsPerFolder := [0, 1, 2], unpackSizes := [1], digests := [] } }

theorem fileStreams_mapsInOrder_mixed : ∃ start,
    FileStreams.new none 3 (some mixedStreams) = .ok start ∧
      ∃ folders entries, StreamInfo.folderList (some mixedStreams) = .ok folders ∧
        start.MapsInOrder (folderSubstreams folders) entries := by
  have hwalk : (match FileStreams.new none 3 (some mixedStreams) with
      | .ok start => (start.mapAll fun file => .ok file).all Except.isOk
      | .error _ => false) = true := by decide +kernel
  rcases hnew : FileStreams.new none 3 (some mixedStreams) with e | start <;> rw [hnew] at hwalk
  · cases hwalk
  refine ⟨start, rfl, (fileStreams_mapsInOrder none 3 (some mixedStreams)).2.2 start hnew ?_⟩
  intro result hresult
  have hok := List.all_eq_true.mp hwalk result hresult
  cases result with
  | error e => cases hok
  | ok file => exact ⟨file, rfl⟩

end FileStreams

end R7z
