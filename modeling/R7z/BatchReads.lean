import R7z.SessionReads

/-! Many entries in one pass. The callback is invoked once for each selected entry that is like a file, in
the order of the archive, and it is offered the bytes that the extraction of the entry by itself writes. -/

namespace R7z

open Effect Effect.Machine

/-! What is selected -/

namespace EntrySelection

theorem sorted_perm (indices : List ℕ) : (sorted indices).Perm indices := by
  unfold sorted
  split
  · exact List.Perm.refl _
  · exact List.mergeSort_perm _ _

theorem nodup_of_distinct {indices : List ℕ} (h : hasDuplicate (sorted indices) = false) : indices.Nodup :=
  (sorted_perm indices).nodup_iff.mp ((strict_of_sorted (sorted_pairwise indices) h).imp fun hlt => hlt.ne)

theorem new_perm {requested : List ℕ} {count : ℕ} {selection : EntrySelection}
    (h : EntrySelection.new (some requested) count = .ok selection) : selection.indices.Perm requested := by
  cases requested with
  | nil =>
    cases h
    exact List.Perm.refl _
  | cons i requested =>
    unfold EntrySelection.new at h
    dsimp only at h
    split at h
    · cases h
    split at h
    · cases h
    cases h
    exact sorted_perm _

theorem all_of_new {requested : Option (List ℕ)} {count first last : ℕ}
    (h : EntrySelection.new requested count = .ok (.all first last)) : first = 0 ∧ last = count := by
  unfold EntrySelection.new at h
  split at h
  · cases h
    exact ⟨rfl, rfl⟩
  · cases h
  · split at h
    · cases h
    split at h
    · cases h
    · cases h

theorem indices_perm {requested : Option (List ℕ)} {count : ℕ} {selection : EntrySelection}
    (h : EntrySelection.new requested count = .ok selection) :
    selection.indices.Perm (requested.getD (List.range count)) := by
  cases requested with
  | none =>
    cases h
    show (List.range' 0 (count - 0)).Perm (List.range count)
    rw [List.range_eq_range', Nat.sub_zero]
  | some requested => exact new_perm h

theorem new_refuses {requested : List ℕ} {count : ℕ}
    (h : (∃ i ∈ requested, count ≤ i) ∨ ¬requested.Nodup) :
    ∃ text, EntrySelection.new (some requested) count = .error (.invalidOptions text) := by
  cases requested with
  | nil =>
    rcases h with ⟨i, hmem, -⟩ | hnodup
    · cases hmem
    · exact absurd List.nodup_nil hnodup
  | cons i requested =>
    unfold EntrySelection.new
    dsimp only
    split
    · exact ⟨_, rfl⟩
    · rename_i hbounds
      split
      · exact ⟨_, rfl⟩
      · rename_i hdistinct
        rcases h with ⟨j, hmem, hle⟩ | hnodup
        · exact absurd (List.any_eq_true.mpr ⟨j, hmem, decide_eq_true hle⟩) hbounds
        · exact absurd (nodup_of_distinct (Bool.eq_false_iff.mpr hdistinct)) hnodup

end EntrySelection

namespace FileStreams

theorem select_ok {i : ℕ} {file : FileStream} {files after : FileStreams}
    (h : select (fun file => .ok file) i files = (.ok file, after)) :
    files.entries.next ≤ i ∧ nth (i - files.entries.next) files = (.ok (some file), after) := by
  unfold select at h
  obtain ⟨_, _, hget, h⟩ := Machine.bind_eq_ok.mp h
  cases hget
  split at h
  · cases h
  · rename_i hnext
    obtain ⟨found, middle, hnth, h⟩ := Machine.bind_eq_ok.mp h
    cases found with
    | none => cases h
    | some found =>
      cases h
      exact ⟨Nat.not_lt.mp hnext, hnth⟩

theorem next_end {files after : FileStreams} {file : FileStream} (h : next files = (.ok (some file), after)) :
    0 < files.len := by
  by_contra hlen
  have htake : takeEntry 0 files =
      (.ok none, { files with entries := { files.entries with next := files.entries.count } }) := by
    unfold takeEntry Entries.nth
    unfold len Entries.len at hlen
    rw [if_neg (by omega)]
  unfold next at h
  rw [Machine.bind_of_ok htake] at h
  obtain ⟨_, _, _, h⟩ := Machine.bind_eq_ok.mp h
  cases h

end FileStreams

theorem Entries.nth_new (files : Option FilesInfo) (count i : ℕ) : ((Entries.new files count).nth i).1 =
    if i < count then some (i, (Entries.new files count).kind i) else none := by
  unfold Entries.nth
  rw [show (Entries.new files count).next + i = i from Nat.zero_add i,
    show (Entries.new files count).count = count from rfl]
  split
  · rfl
  · rfl

section
variable {ω δ κ : Type}

namespace ArchiveReadSession

variable {crc32 : List UInt8 → UInt32} {limits : ResourceLimits} {start : FileStreams}

theorem Watched.nth {session : ArchiveReadSession ω δ} (h : session.Watched crc32 limits start) {i : ℕ}
    (hnext : session.files.entries.next ≤ i) (hlt : i < session.count) {file : FileStream} {files : FileStreams}
    (hnth : FileStreams.nth (i - session.files.entries.next) session.files = (.ok (some file), files)) :
    FileStreams.entryAt start.streams.left start.entries i = some file ∧
      ({ session with files } : ArchiveReadSession ω δ).Watched crc32 limits start ∧
      files.entries = { session.files.entries with next := i + 1 } := by
  have hnextIndex := h.aligned.nextIndex
  rw [← hnextIndex] at hnext hnth
  have hlen : i - session.nextIndex < session.files.len := by
    rw [h.aligned.len]
    omega
  have hout := FileStreams.nth_outcome hlen
  rw [hnth] at hout
  obtain ⟨found, hfound, hgives⟩ := hout
  obtain rfl := Option.some.inj hfound
  obtain ⟨hentry, hafter⟩ := h.gives hnext hlt hgives
  exact ⟨hentry, hafter, (h.aligned.gives hnext hlt hgives).1⟩

theorem mapSelected_entries : ∀ (indices : List ℕ) {session : ArchiveReadSession ω δ} {entries : List FileStream},
    session.Watched crc32 limits start → (∀ i ∈ indices, i < session.count) →
      FileStreams.mapSelected (fun file => .ok file) indices session.files = entries.map .ok →
        entries.map some = indices.map (FileStreams.entryAt start.streams.left start.entries)
  | [], session, entries, _, _, hmap => by
    have hnone : entries = [] := List.map_eq_nil_iff.mp hmap.symm
    rw [hnone]
    rfl
  | i :: indices, session, [], _, _, hmap => by cases hmap
  | i :: indices, session, file :: entries, h, hbounds, hmap => by
    obtain ⟨hfirst, hrest⟩ := List.cons.inj hmap
    obtain ⟨hnext, hnth⟩ := FileStreams.select_ok (Prod.ext hfirst rfl)
    obtain ⟨hentry, hafter, -⟩ := h.nth hnext (hbounds i List.mem_cons_self) hnth
    have htail := mapSelected_entries indices hafter (fun j hj => hbounds j (List.mem_cons_of_mem _ hj)) hrest
    rw [List.map_cons, List.map_cons, hentry, htail]

theorem mapRest_entries : ∀ (turns : ℕ) {session : ArchiveReadSession ω δ} {entries : List FileStream},
    session.Watched crc32 limits start → session.files.len < turns →
      FileStreams.mapRest (fun file => .ok file) turns session.files = entries.map .ok →
        entries.map some = (List.range' session.files.entries.next session.files.len).map
          (FileStreams.entryAt start.streams.left start.entries)
  | 0, session, entries, _, hturns, _ => absurd hturns (Nat.not_lt_zero _)
  | turns + 1, session, entries, h, hturns, hmap => by
    unfold FileStreams.mapRest at hmap
    rcases hnext : FileStreams.next session.files with ⟨e | found, files⟩
    · rw [hnext] at hmap
      cases entries with
      | nil => cases hmap
      | cons file entries => cases hmap
    -- the session counts as the walk does, so one entry is as far for both
    have hlen : session.files.len = session.count - session.files.entries.next := by
      rw [h.aligned.len, h.aligned.nextIndex]
    cases found with
    | none =>
      rw [hnext] at hmap
      have hnone : entries = [] := List.map_eq_nil_iff.mp hmap.symm
      have hend : session.files.len = 0 := by
        by_contra hpos
        have hout := FileStreams.nth_outcome (Nat.pos_of_ne_zero hpos)
        rw [FileStreams.nth_zero, hnext] at hout
        obtain ⟨file, hfile, -⟩ := hout
        cases hfile
      rw [hnone, hend]
      rfl
    | some file =>
      rw [hnext] at hmap
      have hpos := FileStreams.next_end hnext
      cases entries with
      | nil => cases hmap
      | cons first entries =>
        obtain ⟨hfirst, hrest⟩ := List.cons.inj hmap
        obtain rfl := Except.ok.inj hfirst
        have hlt : session.files.entries.next < session.count := by omega
        have hnth : FileStreams.nth (session.files.entries.next - session.files.entries.next) session.files =
            (.ok (some file), files) := by rw [Nat.sub_self, FileStreams.nth_zero, hnext]
        obtain ⟨hentry, hafter, hentries⟩ := h.nth le_rfl hlt hnth
        have hafterNext : files.entries.next = session.files.entries.next + 1 := by rw [hentries]
        have hafterLen : files.len = session.files.len - 1 := by
          unfold FileStreams.len Entries.len
          rw [hentries]
          dsimp only
          omega
        have htail := mapRest_entries turns hafter (by
          show files.len < turns
          omega) hrest
        rw [List.map_cons, htail]
        show _ :: (List.range' files.entries.next files.len).map _ = _
        obtain ⟨n, hn⟩ : ∃ n, session.files.len = n + 1 := Nat.exists_eq_succ_of_ne_zero hpos.ne'
        rw [hafterNext, hafterLen, hn, List.range'_succ, List.map_cons, hentry, Nat.add_sub_cancel]

end ArchiveReadSession

variable (env : Environment ω δ)

structure ReadableEntry.Met (packs : PackedSource) (password : Option String) (entry : ReadableEntry)
    (given : CallbackRun) : Prop where
  index : given.entry = entry.index
  offered : ∀ output, env.Decodes packs password output → given.Offered (entry.bytes output)

theorem entries_of_met {packs : PackedSource} {password : Option String} {entries : List ReadableEntry}
    {given : List CallbackRun} (h : List.Forall₂ (ReadableEntry.Met env packs password) entries given) :
    given.map CallbackRun.entry = entries.map ReadableEntry.index := by
  induction h with
  | nil => rfl
  | cons hmet _ ih => rw [List.map_cons, List.map_cons, ih, hmet.index]

theorem given_of_met {packs : PackedSource} {password : Option String} {entries : List ReadableEntry}
    {given : List CallbackRun} (h : List.Forall₂ (ReadableEntry.Met env packs password) entries given)
    {run : CallbackRun} (hrun : run ∈ given) : ∃ entry ∈ entries, entry.Met env packs password run := by
  induction h with
  | nil => cases hrun
  | cons hmet _ ih =>
    rcases List.mem_cons.mp hrun with rfl | hrun
    · exact ⟨_, List.mem_cons_self, hmet⟩
    · obtain ⟨entry, hentry, hlater⟩ := ih hrun
      exact ⟨entry, List.mem_cons_of_mem _ hentry, hlater⟩

namespace EntryDecoder

variable {limits : ResourceLimits} {all : List StreamLocation} {packs : PackedSource} {password : Option String}

theorem readFiles_entries (callback : EntryCallback κ) : ∀ {files : List (Except R7zError FileStream)}
    {state result : κ} {decoder decoder' : EntryDecoder ω δ},
    readFiles env callback state files decoder = (.ok result, decoder') →
      ∃ entries : List FileStream, files = entries.map .ok
  | [], _, _, _, _, _ => ⟨[], rfl⟩
  | file :: files, state, result, decoder, decoder', hrun => by
    obtain ⟨found, d₁, hfile, hrun⟩ := Machine.bind_eq_ok.mp hrun
    obtain ⟨state', d₂, -, hrun⟩ := Machine.bind_eq_ok.mp hrun
    obtain ⟨entries, hentries⟩ := readFiles_entries callback hrun
    have hok : file = .ok found := congrArg Prod.fst hfile
    exact ⟨found :: entries, by rw [hok, hentries, List.map_cons]⟩

theorem readFiles_meets (hall : Located all) (callback : EntryCallback κ) : ∀ {entries : List FileStream}
    {state result : κ} {decoder decoder' : EntryDecoder ω δ},
    (∀ file ∈ entries, ∀ location, file.kind.stream? = some location → location ∈ all) →
      decoder.Known env.crc32 limits all → decoder.Recorded env packs password →
        readFiles env callback state (entries.map .ok) decoder = (.ok result, decoder') →
          ∃ given, decoder'.op.history.callbacks = given.reverse ++ decoder.op.history.callbacks ∧
            List.Forall₂ (ReadableEntry.Met env packs password) (entries.filterMap ReadableEntry.fromFile) given
  | [], state, result, decoder, decoder', _, _, _, hrun => by
    cases hrun
    exact ⟨[], rfl, .nil⟩
  | file :: entries, state, result, decoder, decoder', hlocated, hknown, hrecorded, hrun => by
    obtain ⟨found, d₁, hfile, hrun⟩ := Machine.bind_eq_ok.mp hrun
    cases hfile
    obtain ⟨state', d₂, hread, hrun⟩ := Machine.bind_eq_ok.mp hrun
    have hlater : ∀ file ∈ entries, ∀ location, file.kind.stream? = some location → location ∈ all :=
      fun later hlater => hlocated later (List.mem_cons_of_mem _ hlater)
    unfold readFile at hread
    cases hentry : ReadableEntry.fromFile file with
    | none =>
      rw [hentry] at hread
      cases hread
      obtain ⟨given, hgiven, hmet⟩ := readFiles_meets hall callback hlater hknown hrecorded hrun
      exact ⟨given, hgiven, by rw [List.filterMap_cons_none hentry]; exact hmet⟩
    | some entry =>
      rw [hentry] at hread
      have hstream : ∀ location, entry.content = .Stream location → location ∈ all := fun location hcontent =>
        hlocated file List.mem_cons_self location (ReadableEntry.fromFile_location hentry hcontent)
      obtain ⟨first, hfirst, hindex, hoffered⟩ := read_offers env hall hstream hknown hrecorded hread
      have hknown' := ((read_knows env hall entry (callback state entry) hstream).ok hknown hread).1
      have hrecorded' := (read_recorded env entry (callback state entry)).ok hrecorded hread
      obtain ⟨given, hgiven, hmet⟩ := readFiles_meets hall callback hlater hknown' hrecorded' hrun
      refine ⟨first :: given, ?_, ?_⟩
      · rw [hgiven, hfirst, List.reverse_cons, List.append_assoc]
        rfl
      · rw [List.filterMap_cons_some hentry]
        exact .cons ⟨hindex, hoffered⟩ hmet

theorem finish_callbacks {verification : ReadVerification} {decoder decoder' : EntryDecoder ω δ}
    (hrun : finish env decoder = (.ok verification, decoder')) :
    decoder'.op.history.callbacks = decoder.op.history.callbacks := by
  obtain ⟨_, d₁, hget, hrun⟩ := Machine.bind_eq_ok.mp hrun
  cases hget
  obtain ⟨_, d₂, hclose, hrun⟩ := Machine.bind_eq_ok.mp hrun
  cases hclose
  obtain ⟨_, d₃, hcomplete, hrun⟩ := Machine.bind_eq_ok.mp hrun
  have hcompleted := complete_callbacks env hcomplete
  obtain ⟨_, d₄, hcheck, hrun⟩ := Machine.bind_eq_ok.mp hrun
  obtain ⟨op, hquiet, rfl⟩ := onOperation_ok hcheck
  obtain ⟨_, d₅, hget, hrun⟩ := Machine.bind_eq_ok.mp hrun
  cases hget
  cases hrun
  have hchecked : op.history.callbacks = d₃.op.history.callbacks := by
    rw [((check_quiet env).ok hquiet).history]
  exact hchecked.trans hcompleted

end EntryDecoder

namespace ArchiveSections

open ArchiveReadSession

variable {archive : ArchiveSections} {config : ArchiveReadConfig} {outside : ω}

theorem streamEntrySelection_meets {requested : Option (List ℕ)} {selection : EntrySelection}
    (hselection : EntrySelection.new requested archive.numFiles = .ok selection)
    {callback : EntryCallback κ} {mode : CompletionMode} {state result : κ} {history : History}
    (hrun : archive.streamEntrySelection env selection mode config callback state outside = (.ok result, history)) :
    ∃ files source given, ∃ entries : List FileStream, archive.open = .ok (files, source) ∧
      entries.map some = selection.indices.map (FileStreams.entryAt files.streams.left files.entries) ∧
      history.callbacks = given.reverse ∧
      List.Forall₂ (ReadableEntry.Met env source config.password) (entries.filterMap ReadableEntry.fromFile) given := by
  unfold streamEntrySelection at hrun
  cases hopen : archive.open with
  | error e =>
    rw [hopen] at hrun
    cases hrun
  | ok opened =>
    obtain ⟨files, source⟩ := opened
    rw [hopen] at hrun
    dsimp only at hrun
    obtain ⟨hresult, hhistory⟩ := Prod.mk.inj hrun
    obtain ⟨final, read, hread, hrest⟩ := Machine.bind_eq_ok.mp (Prod.ext hresult rfl)
    obtain ⟨verification, finished, hfinish, hpure⟩ := Machine.bind_eq_ok.mp hrest
    have hfinished : history = finished.op.history := by
      rw [← hhistory]
      exact (congrArg (fun r => r.2.op.history) hpure).symm
    -- the walk over the entries is that of a session that was just opened
    have hsession : archive.readSession (δ := δ) config outside = .ok
        { files, decoder := EntryDecoder.new source .SelectedStreams config outside, count := archive.numFiles } := by
      unfold readSession
      rw [hopen]
      rfl
    obtain ⟨hnew, hwatched⟩ := ArchiveReadSession.watched_of_open env hsession
    obtain ⟨entries, hentries⟩ := EntryDecoder.readFiles_entries env callback hread
    obtain ⟨-, hbounds⟩ := EntrySelection.indices_of_new hselection
    have hmap : entries.map some = selection.indices.map (FileStreams.entryAt files.streams.left files.entries) := by
      cases selection with
      | empty => exact ArchiveReadSession.mapSelected_entries [] hwatched hbounds hentries
      | selected indices => exact ArchiveReadSession.mapSelected_entries indices hwatched hbounds hentries
      | all first last =>
        obtain ⟨rfl, rfl⟩ := EntrySelection.all_of_new hselection
        have hwalk := ArchiveReadSession.mapRest_entries _ hwatched (Nat.lt_succ_self _) hentries
        have hzero : files.entries.next = 0 := by
          obtain ⟨layouts, -, -, hfiles, -⟩ := FileStreams.new_eq_ok hnew
          rw [show files.entries = _ from hfiles]
          rfl
        have hlen : files.len = archive.numFiles := by
          have hcount := hwatched.aligned.count
          unfold FileStreams.len Entries.len
          rw [hzero, Nat.sub_zero]
          exact hcount
        rw [hwalk]
        show (List.range' files.entries.next files.len).map _ = (List.range' 0 (archive.numFiles - 0)).map _
        rw [hzero, hlen, Nat.sub_zero]
    -- what is read is among the streams of the archive
    have hlocated : ∀ file ∈ entries, ∀ location, file.kind.stream? = some location →
        location ∈ files.streams.left := by
      intro file hfile location hlocation
      have hmem : some file ∈ entries.map some := List.mem_map_of_mem hfile
      rw [hmap] at hmem
      obtain ⟨i, -, hentry⟩ := List.mem_map.mp hmem
      exact FileStreams.entryAt_mem hentry hlocation
    rw [hentries] at hread
    have hrecorded : (EntryDecoder.new source mode config outside : EntryDecoder ω δ).Recorded env source
        config.password := ⟨rfl, fun index active hcurrent => (by cases hcurrent), rfl⟩
    have hknown : (EntryDecoder.new source mode config outside : EntryDecoder ω δ).Known env.crc32 config.limits
        files.streams.left := hwatched.known
    obtain ⟨given, hgiven, hmet⟩ := EntryDecoder.readFiles_meets env (FileStreams.new_located hnew) callback hlocated
      hknown hrecorded hread
    refine ⟨files, source, given, entries, rfl, hmap, ?_, hmet⟩
    rw [hfinished, EntryDecoder.finish_callbacks env hfinish, hgiven]
    exact List.append_nil _

def fileLike (archive : ArchiveSections) (i : ℕ) : Bool :=
  match (Entries.new archive.files archive.numFiles).kind i with
  | .directory | .anti => false
  | _ => true

theorem entries_of_open {files : FileStreams} {source : PackedSource} (h : archive.open = .ok (files, source)) :
    files.entries = Entries.new archive.files archive.numFiles := by
  unfold ArchiveSections.open at h
  obtain ⟨opened, hnew, h⟩ := Wire.except_bind_eq_ok.mp h
  obtain ⟨position, -, h⟩ := Wire.except_bind_eq_ok.mp h
  have hfiles : opened = files := congrArg Prod.fst (Except.ok.inj h)
  obtain ⟨layouts, -, -, hentries, -⟩ := FileStreams.new_eq_ok hnew
  rw [← hfiles]
  exact hentries

theorem fromFile_of_entry {files : FileStreams} {source : PackedSource} (h : archive.open = .ok (files, source))
    {i : ℕ} {file : FileStream} (hentry : FileStreams.entryAt files.streams.left files.entries i = some file) :
    if archive.fileLike i then ∃ entry, ReadableEntry.fromFile file = some entry ∧ entry.index = i
    else ReadableEntry.fromFile file = none := by
  unfold FileStreams.entryAt at hentry
  obtain ⟨kind, hkind, rfl⟩ := Option.map_eq_some_iff.mp hentry
  rw [entries_of_open h] at hkind
  unfold fileLike ReadableEntry.fromFile
  cases hat : (Entries.new archive.files archive.numFiles).kind i with
  | file _ =>
    rw [hat] at hkind
    obtain ⟨location, -, rfl⟩ := Option.map_eq_some_iff.mp hkind
    exact ⟨_, rfl, rfl⟩
  | symlink _ =>
    rw [hat] at hkind
    obtain ⟨location, -, rfl⟩ := Option.map_eq_some_iff.mp hkind
    exact ⟨_, rfl, rfl⟩
  | emptyFile =>
    rw [hat] at hkind
    cases hkind
    exact ⟨_, rfl, rfl⟩
  | emptySymlink =>
    rw [hat] at hkind
    cases hkind
    exact ⟨_, rfl, rfl⟩
  | directory =>
    rw [hat] at hkind
    cases hkind
    rfl
  | anti =>
    rw [hat] at hkind
    cases hkind
    rfl

theorem readable_indices {files : FileStreams} {source : PackedSource} (h : archive.open = .ok (files, source)) :
    ∀ {indices : List ℕ} {entries : List FileStream},
      entries.map some = indices.map (FileStreams.entryAt files.streams.left files.entries) →
        (entries.filterMap ReadableEntry.fromFile).map ReadableEntry.index = indices.filter archive.fileLike
  | [], [], _ => rfl
  | [], _ :: _, hmap => by cases hmap
  | _ :: _, [], hmap => by cases hmap
  | i :: indices, file :: entries, hmap => by
    obtain ⟨hfirst, hrest⟩ := List.cons.inj hmap
    have htail := readable_indices h hrest
    have hfile := fromFile_of_entry h hfirst.symm
    split at hfile
    · rename_i hlike
      obtain ⟨entry, hentry, hindex⟩ := hfile
      rw [List.filterMap_cons_some hentry, List.map_cons, htail, List.filter_cons_of_pos hlike, hindex]
    · rename_i hlike
      rw [List.filterMap_cons_none hfile, htail, List.filter_cons_of_neg hlike]

end ArchiveSections

/-! Extraction of one entry -/

theorem copyEntry_copies {writer : EntryWriter} : ∀ {turns : ℕ} {written result : List UInt8} {s s' : Reading ω δ}
    {entry : ℕ} {handed : List (ℕ × List UInt8)} {callbacks : List CallbackRun},
    (copyEntry writer turns written).run env s = (.ok result, s') →
      s.op.history.callbacks = { entry, handed } :: callbacks → handed.flatMap Prod.snd = written →
        ∃ handed', s'.op.history.callbacks = { entry, handed := handed' } :: callbacks ∧
          handed'.flatMap Prod.snd = result ∧ ∃ size, 0 < size ∧ (size, []) ∈ handed'
  | 0, _, _, _, _, _, _, _, hrun, _, _ => by cases hrun
  | turns + 1, written, result, s, s', entry, handed, callbacks, hrun, hs, hhanded => by
    unfold copyEntry Consumer.run at hrun
    have hread := SubstreamReader.read_keeps env
      (I := fun s => s.op.history.callbacks = { entry, handed } :: callbacks)
      (fun _ _ hs h => hs.callbacks.trans h) (fun n => readDecoder_callbacks env n _)
      (min (writer.room written + 1) (8 * 1024)) s hs
    rcases hresult : SubstreamReader.read env (min (writer.room written + 1) (8 * 1024)) s with ⟨e | bytes, t⟩
    · rw [hresult] at hread hrun
      cases e with
      | interrupted => exact copyEntry_copies hrun hread hhanded
      | _ => cases hrun
    · rw [hresult] at hread hrun
      have ht : t.op.history.callbacks = { entry, handed } :: callbacks := hread
      have hnoted : (noteHanded (min (writer.room written + 1) (8 * 1024)) bytes t.op.history).callbacks =
          { entry, handed := handed ++ [(min (writer.room written + 1) (8 * 1024), bytes)] } :: callbacks := by
        unfold noteHanded
        rw [ht]
      have hbytes : (handed ++ [(min (writer.room written + 1) (8 * 1024), bytes)]).flatMap Prod.snd =
          written ++ bytes := by
        rw [List.flatMap_append, hhanded, List.flatMap_singleton]
      dsimp only at hrun
      split at hrun
      · rename_i hempty
        have hnone := List.isEmpty_iff.mp hempty
        cases hrun
        refine ⟨_, hnoted, ?_, _, ?_, List.mem_append_right _ (by rw [hnone]; exact List.mem_singleton_self _)⟩
        · rw [hbytes, hnone, List.append_nil]
        · exact Nat.lt_min.mpr ⟨Nat.succ_pos _, by decide⟩
      · split at hrun
        · cases hrun
        · exact copyEntry_copies hrun hnoted hbytes

theorem ArchiveReadSession.readEntry_copies {session after : ArchiveReadSession ω δ}
    {crc32 : List UInt8 → UInt32} {limits : ResourceLimits} {start : FileStreams} {packs : PackedSource}
    {password : Option String} (hwatched : session.Watched crc32 limits start)
    (hrecorded : session.decoder.Recorded env packs password) {index turns : ℕ} {writer : EntryWriter}
    {written : List UInt8} {file : FileStream} {entry : ReadableEntry} {location : StreamLocation}
    (hentry : FileStreams.entryAt start.streams.left start.entries index = some file)
    (hfile : ReadableEntry.fromFile file = some entry) (hcontent : entry.content = .Stream location)
    (hrun : readEntry env index (copyEntry writer turns []) session = (.ok written, after))
    {given : CallbackRun} {callbacks : List CallbackRun}
    (hcallbacks : after.decoder.op.history.callbacks = given :: callbacks) :
    given.bytes = written ∧ ∃ size, 0 < size ∧ (size, []) ∈ given.handed := by
  have hrequest := readEntry_request env hwatched.aligned index (copyEntry writer turns [])
  rw [hrun] at hrequest
  generalize houtcome : ((.ok written, after) : Except R7zError (List UInt8) × ArchiveReadSession ω δ) = outcome
    at hrequest
  cases hrequest with
  | refused hinvalid => cases houtcome
  | lost e files hnext hlt hloses => cases houtcome
  | directory file files hnext hlt hgives hfile => cases houtcome
  | read file' files entry' hnext hlt hgives hfile' =>
    obtain ⟨hentry', -⟩ := hwatched.gives hnext hlt hgives
    obtain rfl : file = file' := Option.some.inj (hentry.symm.trans hentry')
    obtain rfl : entry = entry' := Option.some.inj (hfile.symm.trans hfile')
    obtain ⟨hresult, hafter⟩ := Prod.mk.inj houtcome
    obtain ⟨s, s', hinvoked, hcopy, hhistory⟩ :=
      EntryDecoder.read_runs env hcontent hrecorded (Prod.ext hresult.symm rfl)
    obtain ⟨handed, hhanded, hbytes, hend⟩ := copyEntry_copies env hcopy hinvoked rfl
    rw [hafter] at hcallbacks
    obtain ⟨rfl, -⟩ := List.cons.inj (hcallbacks.symm.trans (hhistory.trans hhanded))
    exact ⟨hbytes, hend⟩

namespace ArchiveSections

open ArchiveReadSession

variable {archive : ArchiveSections} {config : ArchiveReadConfig} {outside : ω}

theorem readSession_of_open {files : FileStreams} {source : PackedSource} (hopen : archive.open = .ok (files, source)) :
    archive.readSession (δ := δ) config outside = .ok
      { files, decoder := EntryDecoder.new source .SelectedStreams config outside, count := archive.numFiles } := by
  unfold readSession
  rw [hopen]
  rfl

theorem copied_of_request {session after : ArchiveReadSession ω δ}
    (hsession : archive.readSession config outside = .ok session) {index : ℕ} {writer : EntryWriter}
    {written : List UInt8}
    (hrun : ArchiveReadSession.readEntry env index (copyEntry writer env.copyTurns []) session =
      (.ok written, after)) :
    ∃ file entry, FileStreams.entryAt session.files.streams.left session.files.entries index = some file ∧
      ReadableEntry.fromFile file = some entry ∧
      ∀ location, entry.content = .Stream location →
        ∀ output, env.Decodes session.decoder.source config.password output → written = entry.bytes output := by
  obtain ⟨hnew, hwatched⟩ := ArchiveReadSession.watched_of_open env hsession
  have hrecorded := ArchiveReadSession.recorded_of_open env hsession
  obtain ⟨file, entry, given, hentry, hfile, hcallbacks, -, -, hoffered⟩ :=
    (ArchiveReadSession.readEntry_serves env (FileStreams.new_located hnew) hwatched hrecorded hrun).entry
  refine ⟨file, entry, hentry, hfile, fun location hcontent output hdecodes => ?_⟩
  obtain ⟨hbytes, hended⟩ :=
    ArchiveReadSession.readEntry_copies env hwatched hrecorded hentry hfile hcontent hrun hcallbacks
  rw [← (hoffered output hdecodes).ended hended, hbytes]

theorem extractToWriter_writes {index : ℕ} {writer : EntryWriter} {written : List UInt8}
    (hrun : archive.extractToWriter env index writer config outside = .ok written) {files : FileStreams}
    {source : PackedSource} (hopen : archive.open = .ok (files, source)) {file : FileStream}
    (hfile : FileStreams.entryAt files.streams.left files.entries index = some file) :
    ∃ entry, ReadableEntry.fromFile file = some entry ∧
      ∀ output, env.Decodes source config.password output → written = entry.bytes output := by
  have hlocated := hfile
  unfold FileStreams.entryAt at hlocated
  obtain ⟨kind, hkind, hbound⟩ := Option.map_eq_some_iff.mp hlocated
  rw [entries_of_open hopen] at hkind
  unfold extractToWriter at hrun
  rw [Entries.nth_new] at hrun
  split at hrun
  · rename_i hnone
    cases hrun
  · rename_i i found hsome
    split at hsome
    · cases hsome
      cases hat : (Entries.new archive.files archive.numFiles).kind index
      case directory | anti =>
        rw [hat] at hrun
        cases hrun
      case emptyFile | emptySymlink =>
        rw [hat] at hrun hkind
        cases hrun
        cases hkind
        exact ⟨_, by rw [← hbound]; rfl, fun _ _ => rfl⟩
      case file | symlink =>
        rw [hat] at hrun hkind
        obtain ⟨location, -, rfl⟩ := Option.map_eq_some_iff.mp hkind
        rw [readSession_of_open hopen] at hrun
        obtain ⟨_, after, hread, hrest⟩ := Machine.bind_eq_ok.mp (Prod.ext hrun rfl)
        obtain ⟨_, finished, -, hpure⟩ := Machine.bind_eq_ok.mp hrest
        cases hpure
        obtain ⟨opened, entry, hopened, hentry, hwrites⟩ :=
          copied_of_request env (readSession_of_open hopen) hread
        obtain rfl : opened = file := Option.some.inj (hopened.symm.trans hfile)
        refine ⟨entry, hentry, hwrites location ?_⟩
        rw [← hbound] at hentry
        cases hentry
        rfl
    · cases hsome

theorem streamFiles_meets {requested : Option (List ℕ)} {callback : EntryCallback κ} {state result : κ}
    {history : History}
    (hrun : archive.streamFiles env requested config callback state outside = (.ok result, history)) :
    ∃ selection, EntrySelection.new requested archive.numFiles = .ok selection ∧
      (selection.indices = [] ∧ history.callbacks = [] ∨
        ∃ files source given, ∃ entries : List FileStream, archive.open = .ok (files, source) ∧
          entries.map some = selection.indices.map (FileStreams.entryAt files.streams.left files.entries) ∧
          history.callbacks = given.reverse ∧
          List.Forall₂ (ReadableEntry.Met env source config.password)
            (entries.filterMap ReadableEntry.fromFile) given) := by
  unfold streamFiles at hrun
  cases hselection : EntrySelection.new requested archive.numFiles with
  | error e =>
    rw [hselection] at hrun
    cases hrun
  | ok selection =>
    rw [hselection] at hrun
    refine ⟨selection, rfl, ?_⟩
    cases selection with
    | empty =>
      cases hrun
      exact .inl ⟨rfl, rfl⟩
    | all first last => exact .inr (streamEntrySelection_meets env hselection hrun)
    | selected indices => exact .inr (streamEntrySelection_meets env hselection hrun)

theorem streamFiles_refuses {indices : List ℕ} (hinvalid : (∃ i ∈ indices, archive.numFiles ≤ i) ∨ ¬indices.Nodup)
    (callback : EntryCallback κ) (state : κ) :
    ∃ text, archive.streamFiles env (some indices) config callback state outside =
      (.error (.invalidOptions text), History.empty) := by
  obtain ⟨text, hrefused⟩ := EntrySelection.new_refuses hinvalid
  exact ⟨text, by unfold streamFiles; rw [hrefused]⟩

theorem streamFiles_order {requested : Option (List ℕ)} {callback : EntryCallback κ} {state result : κ}
    {history : History}
    (hrun : archive.streamFiles env requested config callback state outside = (.ok result, history)) :
    ∃ indices : List ℕ, indices.Perm (requested.getD (List.range archive.numFiles)) ∧ indices.Pairwise (· < ·) ∧
      history.callbacks.reverse.map CallbackRun.entry = indices.filter archive.fileLike := by
  obtain ⟨selection, hselection, hvisits⟩ := streamFiles_meets env hrun
  obtain ⟨hsorted, -⟩ := EntrySelection.indices_of_new hselection
  refine ⟨selection.indices, EntrySelection.indices_perm hselection, hsorted, ?_⟩
  rcases hvisits with ⟨hnone, hnobody⟩ | ⟨files, source, given, entries, hopen, hmap, hgiven, hmet⟩
  · rw [hnone, hnobody]
    rfl
  · rw [hgiven, List.reverse_reverse, entries_of_met env hmet, readable_indices hopen hmap]

theorem given_of_batch {requested : Option (List ℕ)} {callback : EntryCallback κ} {state result : κ}
    {history : History}
    (hrun : archive.streamFiles env requested config callback state outside = (.ok result, history))
    {given : CallbackRun} (hgiven : given ∈ history.callbacks) :
    ∃ files source indices, ∃ entries : List FileStream, ∃ entry, archive.open = .ok (files, source) ∧
      entries.map some = List.map (FileStreams.entryAt files.streams.left files.entries) indices ∧
      entry ∈ entries.filterMap ReadableEntry.fromFile ∧ entry.Met env source config.password given := by
  obtain ⟨selection, -, hvisits⟩ := streamFiles_meets env hrun
  rcases hvisits with ⟨-, hnobody⟩ | ⟨files, source, all, entries, hopen, hmap, hall, hmet⟩
  · rw [hnobody] at hgiven
    cases hgiven
  rw [hall] at hgiven
  obtain ⟨entry, hentry, hmet⟩ := given_of_met env hmet (List.mem_reverse.mp hgiven)
  exact ⟨files, source, _, entries, entry, hopen, hmap, hentry, hmet⟩

/-- An entry that was met in a batch was offered what its extraction by itself writes. -/
theorem offered_of_met {files : FileStreams} {source : PackedSource} (hopen : archive.open = .ok (files, source))
    {indices : List ℕ} {entries : List FileStream}
    (hmap : entries.map some = indices.map (FileStreams.entryAt files.streams.left files.entries))
    {entry : ReadableEntry} (hentry : entry ∈ entries.filterMap ReadableEntry.fromFile) {given : CallbackRun}
    (hmet : entry.Met env source config.password given) {output : FolderLayout → List UInt8}
    (houtput : env.Decodes source config.password output) {writer : EntryWriter} {config' : ArchiveReadConfig}
    (hpassword : config'.password = config.password) {outside' : ω} {written : List UInt8}
    (hextract : archive.extractToWriter env given.entry writer config' outside' = .ok written) :
    given.Offered written := by
  obtain ⟨file, hfile, hread⟩ := List.mem_filterMap.mp hentry
  have hmem : some file ∈ entries.map some := List.mem_map_of_mem hfile
  rw [hmap] at hmem
  obtain ⟨i, -, hat⟩ := List.mem_map.mp hmem
  have hindex : given.entry = i := by
    have hlike := fromFile_of_entry hopen hat
    split at hlike
    · obtain ⟨found, hfound, hi⟩ := hlike
      obtain rfl : entry = found := Option.some.inj (hread.symm.trans hfound)
      exact hmet.index.trans hi
    · cases hread.symm.trans hlike
  rw [hindex] at hextract
  obtain ⟨extracted, hextracted, hwrites⟩ := extractToWriter_writes env hextract hopen hat
  obtain rfl : entry = extracted := Option.some.inj (hread.symm.trans hextracted)
  rw [hwrites output (hpassword ▸ houtput)]
  exact hmet.offered output houtput

/-- A batch calls back for the entries of the request that are like files, each once, in the order of the
archive. A request that has an entry twice, or one that the archive has not, opens nothing. -/
theorem streamFiles_visits (requested : Option (List ℕ)) (callback : EntryCallback κ) (state : κ) :
    (∀ indices, requested = some indices → (∃ i ∈ indices, archive.numFiles ≤ i) ∨ ¬indices.Nodup →
      ∃ text, archive.streamFiles env requested config callback state outside =
        (.error (.invalidOptions text), History.empty)) ∧
    ∀ result history, archive.streamFiles env requested config callback state outside = (.ok result, history) →
      ∃ indices : List ℕ, indices.Perm (requested.getD (List.range archive.numFiles)) ∧
        indices.Pairwise (· < ·) ∧
        history.callbacks.reverse.map CallbackRun.entry = indices.filter archive.fileLike := by
  constructor
  · rintro indices rfl hinvalid
    exact streamFiles_refuses env hinvalid callback state
  · exact fun result history hrun => streamFiles_order env hrun

def firstBytes : EntryCallback (List UInt8) := fun seen _ => .read 1 fun
  | .ok bytes => .done (.ok (seen ++ bytes))
  | .error e => .done (.error (.io e))

/-- Both entries of the packed archive are asked for; one of them cannot be asked for twice. -/
theorem streamFiles_visits_packed : ∃ archive session history,
    packedSession = .ok (archive, session) ∧
    archive.streamFiles (checking packedMemory) (some [0, 1]) unlimited firstBytes [] () = (.ok [1, 2], history) ∧
    (∃ indices : List ℕ, indices.Perm [0, 1] ∧ indices.Pairwise (· < ·) ∧
      history.callbacks.reverse.map CallbackRun.entry = indices.filter archive.fileLike) ∧
    ∃ text, archive.streamFiles (checking packedMemory) (some [1, 1]) unlimited firstBytes [] () =
      (.error (.invalidOptions text), History.empty) := by
  have hrun : (match packedSession with
      | .error _ => false
      | .ok (archive, _) => decide ((archive.streamFiles (checking packedMemory) (some [0, 1]) unlimited
          firstBytes [] ()).1.toOption = some [1, 2])) = true := by
    decide +kernel
  rcases hsession : packedSession with e | ⟨archive, session⟩
  · rw [hsession] at hrun
    cases hrun
  rw [hsession] at hrun
  have hresult := of_decide_eq_true hrun
  rcases hstream : archive.streamFiles (checking packedMemory) (some [0, 1]) unlimited firstBytes [] () with
    ⟨e | result, history⟩
  · rw [hstream] at hresult
    cases hresult
  · rw [hstream] at hresult
    obtain rfl : result = [1, 2] := Option.some.inj hresult
    exact ⟨archive, session, history, rfl, hstream,
      (streamFiles_visits (checking packedMemory) (some [0, 1]) firstBytes []).2 _ _ hstream,
      (streamFiles_visits (checking packedMemory) (some [1, 1]) firstBytes []).1 _ rfl (.inr (by decide))⟩

/-- Who is called back for an entry in a batch is offered what the extraction of the entry by itself writes,
at any other time and with whatever limits, where the folders decode to one output each. -/
theorem streamFiles_extracts {requested : Option (List ℕ)} {callback : EntryCallback κ} {state result : κ}
    {history : History}
    (hrun : archive.streamFiles env requested config callback state outside = (.ok result, history))
    (hdecodes : ∀ files source, archive.open = .ok (files, source) →
      ∃ output, env.Decodes source config.password output)
    {given : CallbackRun} (hgiven : given ∈ history.callbacks) {writer : EntryWriter}
    {config' : ArchiveReadConfig} (hpassword : config'.password = config.password) {outside' : ω}
    {written : List UInt8}
    (hextract : archive.extractToWriter env given.entry writer config' outside' = .ok written) :
    given.Offered written := by
  obtain ⟨files, source, indices, entries, entry, hopen, hmap, hentry, hmet⟩ := given_of_batch env hrun hgiven
  obtain ⟨output, houtput⟩ := hdecodes files source hopen
  exact offered_of_met env hopen hmap hentry hmet houtput hpassword hextract

def pairWriter : EntryWriter where
  room _ := 1
  fault _ := none

/-- The second entry of the packed archive in a batch of both, and by itself. -/
theorem streamFiles_extracts_packed : ∃ archive session history given,
    packedSession = .ok (archive, session) ∧
    archive.streamFiles (checking packedMemory) none unlimited firstBytes [] () = (.ok [1, 2], history) ∧
    given ∈ history.callbacks ∧ given.entry = 1 ∧
    archive.extractToWriter (checking packedMemory) given.entry pairWriter unlimited () = .ok [2, 3] ∧
    given.Offered [2, 3] := by
  have hrun : (match packedSession with
      | .error _ => false
      | .ok (archive, _) =>
        decide ((archive.streamFiles (checking packedMemory) none unlimited firstBytes [] ()).1.toOption =
          some [1, 2] ∧
        ((archive.streamFiles (checking packedMemory) none unlimited firstBytes [] ()).2.callbacks.map
          CallbackRun.entry).head? = some 1 ∧
        (archive.extractToWriter (checking packedMemory) 1 pairWriter unlimited ()).toOption =
          some [2, 3])) = true := by
    decide +kernel
  rcases hsession : packedSession with e | ⟨archive, session⟩
  · rw [hsession] at hrun
    cases hrun
  rw [hsession] at hrun
  obtain ⟨hresult, hentry, hextracted⟩ := of_decide_eq_true hrun
  rcases hstream : archive.streamFiles (checking packedMemory) none unlimited firstBytes [] () with
    ⟨e | result, history⟩
  · rw [hstream] at hresult
    cases hresult
  rw [hstream] at hresult hentry
  obtain rfl : result = [1, 2] := Option.some.inj hresult
  rw [List.head?_map] at hentry
  obtain ⟨given, hhead, hgiven⟩ := Option.map_eq_some_iff.mp hentry
  have hmem : given ∈ history.callbacks := List.mem_of_head? hhead
  rcases hextract : archive.extractToWriter (checking packedMemory) 1 pairWriter unlimited () with e | written
  · rw [hextract] at hextracted
    cases hextracted
  rw [hextract] at hextracted
  obtain rfl : written = [2, 3] := Option.some.inj hextracted
  rw [← hgiven] at hextract
  exact ⟨archive, session, history, given, rfl, hstream, hmem, hgiven, hextract,
    streamFiles_extracts (checking packedMemory) hstream (fun files source _ => checking_decodes packedMemory source _)
      hmem rfl hextract⟩

/-- A batch that goes well calls back once for each entry of the request that is like a file, in the order of the
archive, and offers what extraction of the entry by itself writes; a request that has an entry twice, or one that
the archive has not, calls nobody back. -/
theorem streamFiles_equals_extraction (requested : Option (List ℕ)) (callback : EntryCallback κ) (state : κ) :
    (∀ indices, requested = some indices → (∃ i ∈ indices, archive.numFiles ≤ i) ∨ ¬indices.Nodup →
      ∃ text, archive.streamFiles env requested config callback state outside =
        (.error (.invalidOptions text), History.empty)) ∧
    ∀ result history, archive.streamFiles env requested config callback state outside = (.ok result, history) →
      ∃ indices : List ℕ, indices.Perm (requested.getD (List.range archive.numFiles)) ∧
        indices.Pairwise (· < ·) ∧
        history.callbacks.reverse.map CallbackRun.entry = indices.filter archive.fileLike ∧
        ((∀ files source, archive.open = .ok (files, source) →
            ∃ output, env.Decodes source config.password output) →
          ∀ given ∈ history.callbacks, ∀ (writer : EntryWriter) (config' : ArchiveReadConfig) (outside' : ω) written,
            config'.password = config.password →
              archive.extractToWriter env given.entry writer config' outside' = .ok written →
                given.Offered written) := by
  constructor
  · rintro indices rfl hinvalid
    exact streamFiles_refuses env hinvalid callback state
  intro result history hrun
  obtain ⟨indices, hperm, hsorted, hentries⟩ := streamFiles_order env hrun
  refine ⟨indices, hperm, hsorted, hentries, fun hdecodes given hgiven writer config' outside' written hpassword hextract => ?_⟩
  obtain ⟨files, source, met, entries, entry, hopen, hmap, hentry, hmet⟩ := given_of_batch env hrun hgiven
  obtain ⟨output, houtput⟩ := hdecodes files source hopen
  exact offered_of_met env hopen hmap hentry hmet houtput hpassword hextract

/-- A batch of the second entry of the packed archive, what it offers, and a batch that asks for it twice. -/
theorem streamFiles_equals_extraction_packed : ∃ archive session result history,
    packedSession = .ok (archive, session) ∧
    archive.streamFiles (checking packedMemory) (some [1]) unlimited firstBytes [] () = (.ok result, history) ∧
    (∃ indices : List ℕ, indices.Perm [1] ∧ indices.Pairwise (· < ·) ∧
      history.callbacks.reverse.map CallbackRun.entry = indices.filter archive.fileLike) ∧
    (∃ given ∈ history.callbacks, given.entry = 1 ∧
      archive.extractToWriter (checking packedMemory) given.entry pairWriter unlimited () = .ok [2, 3] ∧
      given.Offered [2, 3]) ∧
    ∃ text, archive.streamFiles (checking packedMemory) (some [1, 1]) unlimited firstBytes [] () =
      (.error (.invalidOptions text), History.empty) := by
  have hrun : (match packedSession with
      | .error _ => false
      | .ok (archive, _) =>
        let batch := archive.streamFiles (checking packedMemory) (some [1]) unlimited firstBytes [] ()
        decide (batch.1.isOk = true ∧ (batch.2.callbacks.map CallbackRun.entry).head? = some 1 ∧
          (archive.extractToWriter (checking packedMemory) 1 pairWriter unlimited ()).toOption =
            some [2, 3])) = true := by
    decide +kernel
  rcases hsession : packedSession with e | ⟨archive, session⟩
  · rw [hsession] at hrun
    cases hrun
  rw [hsession] at hrun
  obtain ⟨hok, hentry, hextracted⟩ := of_decide_eq_true hrun
  rcases hstream : archive.streamFiles (checking packedMemory) (some [1]) unlimited firstBytes [] () with
    ⟨e | result, history⟩
  · rw [hstream] at hok
    cases hok
  rw [hstream, List.head?_map] at hentry
  obtain ⟨given, hhead, hgiven⟩ := Option.map_eq_some_iff.mp hentry
  have hmem : given ∈ history.callbacks := List.mem_of_head? hhead
  rcases hextract : archive.extractToWriter (checking packedMemory) 1 pairWriter unlimited () with e | written
  · rw [hextract] at hextracted
    cases hextracted
  rw [hextract] at hextracted
  obtain rfl : written = [2, 3] := Option.some.inj hextracted
  rw [← hgiven] at hextract
  obtain ⟨indices, hperm, hsorted, hentries, hoffered⟩ :=
    (streamFiles_equals_extraction (checking packedMemory) (some [1]) firstBytes []).2 result history hstream
  refine ⟨archive, session, result, history, rfl, hstream, ⟨indices, hperm, hsorted, hentries⟩,
    ⟨given, hmem, hgiven, hextract, ?_⟩, ?_⟩
  · exact hoffered (fun files source _ => checking_decodes packedMemory source _) given hmem pairWriter unlimited ()
      [2, 3] rfl hextract
  · exact (streamFiles_equals_extraction (checking packedMemory) (some [1, 1]) firstBytes []).1 _ rfl (.inr (by decide))

end ArchiveSections

end

end R7z
