import R7z.Decode.FolderInStep
import R7z.ReadSessions

/-! The decoders that a session starts. Each is that of the folder of the entry that was asked for; when a
session says that the folders are complete, every decoder that it started was read to its end, and all
checksums were right. -/

namespace R7z

open Effect Effect.Machine

/-! Where streams are -/

/-- The substream of a location is where it says, in a folder that its substreams cut. -/
structure StreamLocation.Placed (location : StreamLocation) : Prop where
  cut : location.folder.Cut
  stream : location.folder.substreams.toList[location.streamIndex]? = some location.stream

structure Located (all : List StreamLocation) : Prop where
  placed : ∀ location ∈ all, location.Placed
  folder : ∀ a ∈ all, ∀ b ∈ all, a.folderIndex = b.folderIndex → a.folder = b.folder

namespace StreamLocations

theorem mem_openFolder_left {index : ℕ} {folder : FolderLayout} {location : StreamLocation}
    (h : location ∈ (openFolder index folder).left) : location.folderIndex = index ∧
      location.folder = folder ∧
      folder.substreams.toList[location.streamIndex]? = some location.stream := by
  obtain ⟨⟨stream, i⟩, hmem, rfl⟩ := List.mem_map.mp h
  exact ⟨rfl, rfl, List.mem_zipIdx_iff_getElem?.mp hmem⟩

theorem foldersLeft_located : ∀ (k i : ℕ) (layouts : FolderLayouts),
    Located (foldersLeft k (some (i, layouts))) ∧
      ∀ location ∈ foldersLeft k (some (i, layouts)), i ≤ location.folderIndex
  | 0, i, layouts => ⟨⟨fun _ h => (by cases h), fun _ h => (by cases h)⟩, fun _ h => (by cases h)⟩
  | k + 1, i, layouts => by
    rw [foldersLeft]
    cases layouts.turn with
    | ends after heq hturns hidle =>
      rw [nextFolder, heq]
      exact ⟨⟨fun _ h => (by cases h), fun _ h => (by cases h)⟩, fun _ h => (by cases h)⟩
    | fails e after heq hturns hpos =>
      rw [nextFolder, heq]
      exact ⟨⟨fun _ h => (by cases h), fun _ h => (by cases h)⟩, fun _ h => (by cases h)⟩
    | hands folder after heq htakes hturns =>
      rw [nextFolder, heq]
      obtain ⟨⟨hplaced, hfolder⟩, hle⟩ := foldersLeft_located k (i + 1) after
      refine ⟨⟨fun location h => ?_, fun a ha b hb hsame => ?_⟩, fun location h => ?_⟩
      · rcases List.mem_append.mp h with h | h
        · obtain ⟨-, rfl, hstream⟩ := mem_openFolder_left h
          exact ⟨htakes.cut, hstream⟩
        · exact hplaced location h
      · rcases List.mem_append.mp ha with ha | ha
        · obtain ⟨hindex, hfolderA, -⟩ := mem_openFolder_left ha
          rcases List.mem_append.mp hb with hb | hb
          · exact hfolderA.trans (mem_openFolder_left hb).2.1.symm
          · have hb' := hle b hb
            omega
        · have ha' := hle a ha
          rcases List.mem_append.mp hb with hb | hb
          · have hindex := (mem_openFolder_left hb).1
            omega
          · exact hfolder a ha b hb hsame
      · rcases List.mem_append.mp h with h | h
        · exact (mem_openFolder_left h).1.ge
        · exact (Nat.le_succ i).trans (hle location h)

end StreamLocations

theorem FileStreams.new_located {files : Option FilesInfo} {numFiles : ℕ} {streams : Option StreamInfo}
    {start : FileStreams} (h : FileStreams.new files numFiles streams = .ok start) :
    Located start.streams.left := by
  obtain ⟨folders, -, h⟩ := Wire.except_bind_eq_ok.mp h
  split at h
  · cases h
  · cases h
    cases folders with
    | none => exact ⟨fun _ h => (by cases h), fun _ h => (by cases h)⟩
    | some layouts => exact (StreamLocations.foldersLeft_located _ 0 layouts).1

section
variable {ω δ κ : Type} {limits : ResourceLimits} {all : List StreamLocation}

/-- With a folder in hand, or without: its decoder is in step with it, and as long as nothing is known to
be incomplete, the decoders before it were verified. -/
def EntryDecoder.Knows (crc32 : List UInt8 → UInt32) (limits : ResourceLimits) (all : List StreamLocation)
    (active : Option (ℕ × ActiveFolder δ)) (decoder : EntryDecoder ω δ) : Prop :=
  match active with
  | none => decoder.op.Solvent limits ∧ (decoder.verification = .CompleteFolders →
      ∀ run ∈ decoder.op.history.decoders, run.Verified crc32)
  | some (index, folder) => ∃ run runs, folder.InStep crc32 limits runs run decoder.op ∧ run.folder.Cut ∧
      (∀ location ∈ all, location.folderIndex = index → location.folder = run.folder) ∧
      (decoder.verification = .CompleteFolders → ∀ run ∈ runs, run.Verified crc32)

def EntryDecoder.Known (crc32 : List UInt8 → UInt32) (limits : ResourceLimits) (all : List StreamLocation)
    (decoder : EntryDecoder ω δ) : Prop := decoder.Knows crc32 limits all decoder.current

theorem ReadVerification.combine_complete {a b : ReadVerification} (h : a.combine b = .CompleteFolders) :
    a = .CompleteFolders ∧ b = .CompleteFolders := by
  cases a <;> cases b <;> cases h
  exact ⟨rfl, rfl⟩

variable (env : Environment ω δ)

theorem ActiveFolder.InStep.solvent {crc32 : List UInt8 → UInt32} {runs : List DecoderRun} {run : DecoderRun}
    {active : ActiveFolder δ} {op : Operation ω} (h : active.InStep crc32 limits runs run op) :
    op.Solvent limits := R7z.Backed.solvent h.backed

namespace EntryDecoder

theorem Knows.solvent {crc32 : List UInt8 → UInt32} {active : Option (ℕ × ActiveFolder δ)}
    {decoder : EntryDecoder ω δ} (h : decoder.Knows crc32 limits all active) : decoder.op.Solvent limits := by
  cases active with
  | none => exact h.1
  | some active =>
    obtain ⟨run, runs, hin, -, -, -⟩ := h
    exact hin.solvent

theorem complete_knows (active : Option (ℕ × ActiveFolder δ)) :
    Meets (Knows env.crc32 limits all active) (complete env active)
      (fun _ => Knows env.crc32 limits all none) fun _ => Knows env.crc32 limits all none := by
  cases active with
  | none => exact fun _ hs => hs
  | some active =>
    obtain ⟨index, folder⟩ := active
    refine Meets.get_bind fun decoder hs => ?_
    obtain ⟨run, runs, hin, hcut, -, hverified⟩ := hs
    have hfinish : Meets (fun op => op = decoder.op) (folder.finish env decoder.mode)
        (fun verification op => op.Solvent limits ∧
          (decoder.verification.combine verification = .CompleteFolders →
            ∀ run ∈ op.history.decoders, run.Verified env.crc32))
        fun _ op => op.Solvent limits := by
      refine .of_outcomes (fun op verification op' hop hrun => ?_) fun op e op' hop hrun => ?_
      · subst hop
        obtain ⟨run', -, hdecoders, -, hrunVerified⟩ := hin.finish env hcut hrun
        refine ⟨(finish_solvent env folder decoder.mode).ok hin.backed hrun, fun hcomplete r hr => ?_⟩
        obtain ⟨hbefore, hthis⟩ := ReadVerification.combine_complete hcomplete
        rw [hdecoders] at hr
        rcases List.mem_cons.mp hr with rfl | hr
        · exact hrunVerified hthis
        · exact hverified hbefore r hr
      · subst hop
        exact (finish_solvent env folder decoder.mode).error hin.backed hrun
    refine Meets.bind (Meets.attempt (onOperation_meets hfinish)) (fun result => ?_) decoder rfl
    cases result with
    | error e => exact fun _ hs => ⟨hs, fun hcomplete => (by cases hcomplete)⟩
    | ok verification => exact fun _ hs => hs

theorem start_knows (location : StreamLocation) (source : PackedSource) (password : Option String)
    {op : Operation ω} (hop : op.Solvent limits) :
    Outcome (fun folder op' => ActiveFolder.InStep env.crc32 limits op.history.decoders
        { folder := location.folder, reads := [] } folder op')
      (fun _ op' => op'.Solvent limits)
      ((do
        let ready ← location.folder.bind env source
        ready.start env password : OperationM ω (ActiveFolder δ)) op) := by
  refine Meets.bind (P := fun op' => op' = op) (Q := fun ready op' => ready.decoder.Chained ∧
    ready.folder = location.folder ∧ op'.Solvent limits ∧
      op'.history.decoders = op.history.decoders) ?_ (fun ready => ?_) op rfl
  · refine .of_outcomes (fun op₁ ready op' hop₁ hrun => ?_) fun op₁ e op' hop₁ hrun => ?_
    · subst hop₁
      have hquiet := (bind_quiet env location.folder source).ok hrun
      obtain ⟨hchained, hfolder⟩ := FolderLayout.bind_chained env hrun
      exact ⟨hchained, hfolder, hop.steady hquiet.toSteady, hquiet.decoders⟩
    · subst hop₁
      exact hop.steady ((bind_steady env _ _).error hrun)
  · refine .of_outcomes (fun op₁ folder op' hready hrun => ?_) fun op₁ e op' hready hrun => ?_
    · obtain ⟨hchained, hfolder, hsolvent, hdecoders⟩ := hready
      have hin := @ReadyFolder.start_inStep ω δ limits env.crc32 folder op₁ op' env ready password
        hchained hsolvent hrun
      rw [hfolder, hdecoders] at hin
      exact hin
    · obtain ⟨hchained, -, hsolvent, -⟩ := hready
      exact (start_backed env hchained password).error hsolvent hrun

theorem openFolder_knows (hall : Located all) {location : StreamLocation} (hlocation : location ∈ all)
    (previous : Option (ℕ × ActiveFolder δ)) :
    Meets (Knows env.crc32 limits all previous) (openFolder env previous location)
      (fun folder => Knows env.crc32 limits all (some (location.folderIndex, folder)))
      fun _ decoder => decoder.op.Solvent limits := by
  refine Meets.bind ((complete_knows env previous).mono (fun _ hs => hs) (fun _ _ hs => hs)
    fun _ _ hs => hs.1) fun _ => Meets.get_bind fun decoder hs => ?_
  refine Meets.focus (R := fun d => d = decoder) (P := fun op => op = decoder.op)
    (Q := fun folder op => ActiveFolder.InStep env.crc32 limits decoder.op.history.decoders
      { folder := location.folder, reads := [] } folder op)
    (E := fun _ op => op.Solvent limits) ?_ (fun d hd => by rw [hd]) ?_ ?_ decoder rfl
  · intro op hop
    subst hop
    exact start_knows env location decoder.source decoder.password hs.1
  · intro d folder op hd hin
    subst hd
    exact ⟨_, _, hin, (hall.placed location hlocation).cut,
      fun other hother hsame => hall.folder other hother location hlocation hsame, hs.2⟩
  · exact fun d e op _ hsolvent => hsolvent

theorem selectFolder_knows (hall : Located all) {location : StreamLocation} (hlocation : location ∈ all)
    (previous : Option (ℕ × ActiveFolder δ)) :
    Meets (Knows env.crc32 limits all previous) (selectFolder env previous location)
      (fun folder => Knows env.crc32 limits all (some (location.folderIndex, folder)))
      fun _ decoder => decoder.op.Solvent limits := by
  cases previous with
  | none => exact openFolder_knows env hall hlocation none
  | some active =>
    obtain ⟨index, folder⟩ := active
    intro decoder hs
    refine Outcome.ite (fun hindex => ?_) fun _ => openFolder_knows env hall hlocation _ decoder hs
    subst hindex
    exact hs

/-- What a read of a stream did: the decoder of the folder went on, and the callback was given the front
of the entry's substream. -/
structure HandsOut (crc32 : List UInt8 → UInt32) (entry : ℕ) (location : StreamLocation)
    (decoder : EntryDecoder ω δ) : Prop where
  given : ∃ run runs callback callbacks, decoder.op.history.decoders = run :: runs ∧
    decoder.op.history.callbacks = callback :: callbacks ∧ run.folder = location.folder ∧
    callback.entry = entry ∧ callback.Given crc32 location.stream run

theorem readStream_knows (hall : Located all) {location : StreamLocation} (hlocation : location ∈ all)
    (entry : ℕ) (callback : Consumer κ) :
    Meets (Known env.crc32 limits all) (readStream env entry location callback)
      (fun _ decoder => decoder.Known env.crc32 limits all ∧ decoder.HandsOut env.crc32 entry location)
      fun _ decoder => decoder.op.Solvent limits ∧ decoder.current = none := by
  refine Meets.get_bind fun decoder hs => ?_
  have hclose : Meets (fun d : EntryDecoder ω δ => d = decoder) (setCurrent none)
      (fun _ d => d.Knows env.crc32 limits all decoder.current ∧ d.current = none)
      fun _ d => d.op.Solvent limits ∧ d.current = none := by
    intro d hd
    subst hd
    exact ⟨hs, rfl⟩
  refine Meets.bind hclose (fun _ => ?_) decoder rfl
  refine Meets.bind ((selectFolder_knows env hall hlocation decoder.current).and
    ((selectFolder_keeps env decoder.current location).meets fun current => current = none))
    fun active => ?_
  rintro d ⟨⟨run, runs, hin, hcut, hsame, hverified⟩, hcurrent⟩
  have hfolder := hsame location hlocation rfl
  rw [Machine.bind_apply]
  unfold onOperation Machine.focus
  have hbacked := ((skipTo_backed env active location.streamIndex).bind fun skipped =>
    readStream_backed env skipped fun s hs => invoke_covered env callback entry s hs) d.op hin.backed
  rcases hrun : (do
      let active ← active.skipTo env location.streamIndex
      active.readStream env (callback.invoke env entry) : OperationM ω (ActiveFolder δ × κ)) d.op with
    ⟨e | ⟨read, result⟩, op⟩
  · rw [hrun] at hbacked
    exact ⟨hbacked, hcurrent⟩
  · obtain ⟨skipped, op₁, hskip, hread⟩ := Machine.bind_eq_ok.mp hrun
    obtain ⟨run₁, hfolder₁, -, hskipped, hposition⟩ := hin.skipTo env hcut hskip
    have hat : run₁.folder.substreams.toList[skipped.position]? = some location.stream := by
      rw [hposition, hfolder₁, ← hfolder]
      exact (hall.placed location hlocation).stream
    obtain ⟨run', given, hfolder', hlast, hentry, hcallbacks, hgiven⟩ := hskipped.invoke env
      (hfolder₁ ▸ hcut) hat hread
    have hsameFolder : run'.folder = run.folder := hfolder'.trans hfolder₁
    refine ⟨⟨run', runs, hlast, hsameFolder ▸ hcut, fun other hother hindex => ?_, hverified⟩,
      ⟨run', runs, given, _, hlast.decoders, hcallbacks, hsameFolder.trans hfolder.symm, hentry, hgiven⟩⟩
    rw [hsameFolder]
    exact hsame other hother hindex

theorem onOperation_known {α : Type} {m : OperationM ω α} (hm : Moves (Prudent limits) m)
    (hdecoders : Keeps (fun op => op.history.decoders) m) :
    Meets (Known (δ := δ) env.crc32 limits all) (onOperation m) (fun _ => Known env.crc32 limits all)
      fun _ => Known env.crc32 limits all := by
  intro decoder hs
  have hprudent := hm decoder.op
  have hsame : (m decoder.op).2.history.decoders = decoder.op.history.decoders := hdecoders decoder.op
  have hknown : ({ decoder with op := (m decoder.op).2 } : EntryDecoder ω δ).Known env.crc32 limits all := by
    unfold Known Knows at hs ⊢
    dsimp only at hs ⊢
    cases hcurrent : decoder.current with
    | none =>
      rw [hcurrent] at hs
      rw [hsame]
      exact ⟨hs.1.prudent hprudent, hs.2⟩
    | some active =>
      rw [hcurrent] at hs
      obtain ⟨run, runs, hin, hrest⟩ := hs
      exact ⟨run, runs, { hin with backed := R7z.Backed.prudent hin.backed hprudent
                                   decoders := hsame.trans hin.decoders }, hrest⟩
  unfold onOperation Machine.focus
  rcases hrun : m decoder.op with ⟨e | a, op⟩
  · rw [hrun] at hknown
    exact hknown
  · rw [hrun] at hknown
    exact hknown

theorem noteHanded_decoders (size : ℕ) (bytes : List UInt8) (history : History) :
    (noteHanded size bytes history).decoders = history.decoders := by
  unfold noteHanded
  split <;> rfl

theorem runEmpty_decoders (callback : Consumer κ) : ∀ history : History,
    (callback.runEmpty history).2.decoders = history.decoders := by
  induction callback with
  | done result => exact fun history => rfl
  | read size next ih => exact fun history => (ih _ _).trans (noteHanded_decoders size [] history)

theorem runEmpty_callbacks (callback : Consumer κ) : ∀ {history : History} {entry : ℕ}
    {handed : List (ℕ × List UInt8)} {callbacks : List CallbackRun},
    history.callbacks = { entry, handed } :: callbacks → handed.flatMap Prod.snd = [] →
      ∃ handed', (callback.runEmpty history).2.callbacks = { entry, handed := handed' } :: callbacks ∧
        handed'.flatMap Prod.snd = [] := by
  induction callback with
  | done result => exact fun h hnone => ⟨_, h, hnone⟩
  | read size next ih =>
    intro history entry handed callbacks h hnone
    refine @ih (.ok []) (noteHanded size [] history) entry (handed ++ [(size, [])]) callbacks ?_ ?_
    · unfold noteHanded
      rw [h]
    · rw [List.flatMap_append, hnone, List.flatMap_singleton]
      rfl

def Served (crc32 : List UInt8 → UInt32) (entry : ReadableEntry) (decoder : EntryDecoder ω δ) : Prop :=
  match entry.content with
  | .Empty => ∃ callback callbacks, decoder.op.history.callbacks = callback :: callbacks ∧
      callback.entry = entry.index ∧ callback.bytes = []
  | .Stream location => decoder.HandsOut crc32 entry.index location

theorem readEmpty_knows (entry : ℕ) (callback : Consumer κ) :
    Meets (Known (ω := ω) (δ := δ) env.crc32 limits all) (readEmpty entry callback)
      (fun _ decoder => decoder.Known env.crc32 limits all ∧ ∃ given callbacks,
        decoder.op.history.callbacks = given :: callbacks ∧ given.entry = entry ∧ given.bytes = [])
      fun _ => Known env.crc32 limits all := by
  have hknown : Meets (Known (ω := ω) (δ := δ) env.crc32 limits all) (readEmpty entry callback)
      (fun _ => Known env.crc32 limits all) fun _ => Known env.crc32 limits all := by
    refine onOperation_known env (fun op => ?_) fun op =>
      runEmpty_decoders callback (noteInvoked entry op.history)
    obtain ⟨hhanded, hcharged, hunderflow⟩ := runEmpty_history callback (noteInvoked entry op.history)
    exact (⟨fun hop => hop.history hcharged hunderflow,
      hhanded.trans (handed_noteInvoked entry op.history).le, hcharged⟩ : Prudent limits op
        { op with history := (callback.runEmpty (noteInvoked entry op.history)).2 })
  refine .of_outcomes (fun decoder result after hs hrun => ⟨hknown.ok hs hrun, ?_⟩)
    fun decoder e after hs hrun => hknown.error hs hrun
  obtain ⟨handed, hcallbacks, hnone⟩ := @runEmpty_callbacks κ callback
    (noteInvoked entry decoder.op.history) entry [] decoder.op.history.callbacks rfl rfl
  have hafter : after.op.history = (callback.runEmpty (noteInvoked entry decoder.op.history)).2 :=
    (congrArg (fun r : Except R7zError κ × EntryDecoder ω δ => r.2.op.history) hrun).symm
  refine ⟨{ entry, handed }, decoder.op.history.callbacks, ?_, rfl, hnone⟩
  rw [hafter]
  exact hcallbacks

theorem read_knows (hall : Located all) (entry : ReadableEntry) (callback : Consumer κ)
    (hentry : ∀ location, entry.content = .Stream location → location ∈ all) :
    Meets (Known env.crc32 limits all) (read env entry callback)
      (fun _ decoder => decoder.Known env.crc32 limits all ∧ decoder.Served env.crc32 entry)
      fun _ => Known env.crc32 limits all := by
  -- a failure leaves a folder in hand only when it was not touched
  refine Meets.onError ?_
  have hfail : ∀ {decoder : EntryDecoder ω δ}, decoder.Known env.crc32 limits all →
      ({ decoder with verification := .Incomplete } : EntryDecoder ω δ).Known env.crc32 limits all := by
    intro decoder hs
    unfold Known Knows at hs ⊢
    cases hcurrent : decoder.current with
    | none =>
      rw [hcurrent] at hs
      exact ⟨hs.1, fun hcomplete => (by cases hcomplete)⟩
    | some active =>
      rw [hcurrent] at hs
      obtain ⟨run, runs, hin, hcut, hsame, -⟩ := hs
      exact ⟨run, runs, hin, hcut, hsame, fun hcomplete => (by cases hcomplete)⟩
  have hcheck := @onOperation_known ω δ limits all env Unit _
    (prudent_of_steady (check_steady env)) fun op => (check_quiet env op).decoders
  refine Meets.bind (Q := fun _ => Known env.crc32 limits all)
    (hcheck.mono (fun _ hs => hs) (fun _ _ hs => hs) fun _ _ hs => hfail hs) fun _ => ?_
  unfold Served
  cases hcontent : entry.content with
  | Empty =>
    exact (readEmpty_knows env entry.index callback).mono (fun _ hs => hs) (fun _ _ hs => hs)
      fun _ _ hs => hfail hs
  | Stream location =>
    refine (readStream_knows env hall (hentry location hcontent) entry.index callback).mono
      (fun _ hs => hs) (fun _ _ hs => hs) fun _ decoder hs => ?_
    unfold Known Knows
    rw [hs.2]
    exact ⟨hs.1, fun hcomplete => (by cases hcomplete)⟩

theorem finish_knows : Meets (Known env.crc32 limits all) (finish env)
    (fun verification decoder => decoder.Known env.crc32 limits all ∧
      (verification = .CompleteFolders → ∀ run ∈ decoder.op.history.decoders, run.Verified env.crc32))
    fun _ (decoder : EntryDecoder ω δ) => decoder.Known env.crc32 limits all := by
  have hclosed : ∀ {decoder : EntryDecoder ω δ}, decoder.Knows env.crc32 limits all none →
      decoder.current = none → decoder.Known env.crc32 limits all := by
    intro decoder hs hcurrent
    unfold Known
    rw [hcurrent]
    exact hs
  refine Meets.get_bind fun decoder hs => ?_
  have hcomplete := (@complete_knows ω δ limits all env decoder.current).and
    ((complete_keeps env decoder.current).meets fun current => current = none)
  refine Meets.bind (Q := fun _ decoder => decoder.Known env.crc32 limits all ∧ decoder.current = none)
    (Meets.mono hcomplete (fun _ hs => hs) (fun _ _ hs => ⟨hclosed hs.1 hs.2, hs.2⟩)
      fun _ _ hs => hclosed hs.1 hs.2) (fun _ => ?_) { decoder with current := none } ⟨hs, rfl⟩
  have hcheck := @onOperation_known ω δ limits all env Unit _
    (prudent_of_steady (check_steady env)) fun op => (check_quiet env op).decoders
  have hkeeps : Keeps EntryDecoder.current (onOperation (δ := δ) (check env)) := fun _ => rfl
  refine Meets.bind (Meets.mono (hcheck.and (hkeeps.meets fun current => current = none))
    (fun _ hs => hs) (fun _ _ hs => hs) fun _ _ hs => hs.1) fun _ => ?_
  refine Meets.get_bind fun d hs => ⟨hs.1, fun hcompleted => ?_⟩
  have hknown := hs.1
  unfold Known Knows at hknown
  rw [hs.2] at hknown
  exact hknown.2 hcompleted

end EntryDecoder

theorem EntryKind.locate_none {S T : Type} {kind : EntryKind S} {bound : EntryKind T}
    (h : kind.locate none = some bound) (location : Option T) : kind.locate location = some bound := by
  cases kind with
  | file _ => cases h
  | symlink _ => cases h
  | _ => exact h

theorem ReadableEntry.fromFile_location {file : FileStream} {entry : ReadableEntry}
    {location : StreamLocation} (h : ReadableEntry.fromFile file = some entry)
    (hcontent : entry.content = .Stream location) : file.kind.stream? = some location := by
  unfold ReadableEntry.fromFile at h
  cases hkind : file.kind with
  | file other =>
    rw [hkind] at h
    cases h
    cases hcontent
    rfl
  | symlink other =>
    rw [hkind] at h
    cases h
    cases hcontent
    rfl
  | emptyFile =>
    rw [hkind] at h
    cases h
    cases hcontent
  | emptySymlink =>
    rw [hkind] at h
    cases h
    cases hcontent
  | directory =>
    rw [hkind] at h
    cases h
  | anti =>
    rw [hkind] at h
    cases h

theorem FileStreams.entryAt_mem {all : List StreamLocation} {entries : Entries} {i : ℕ} {file : FileStream}
    (h : FileStreams.entryAt all entries i = some file) {location : StreamLocation}
    (hlocation : file.kind.stream? = some location) : location ∈ all := by
  unfold FileStreams.entryAt at h
  obtain ⟨kind, hkind, rfl⟩ := Option.map_eq_some_iff.mp h
  have hstream := FileStreams.locate_stream hkind
  rw [show kind.stream? = some location from hlocation] at hstream
  split at hstream
  · exact List.mem_of_getElem? hstream.symm
  · cases hstream

namespace ArchiveReadSession

/-- A session of the archive whose entries start at `start`: what is known of its decoders, and the streams
that are to come. When a stream could not be had, none is to come any more. -/
structure Watched (crc32 : List UInt8 → UInt32) (limits : ResourceLimits) (start : FileStreams)
    (session : ArchiveReadSession ω δ) : Prop where
  aligned : session.Aligned
  known : session.decoder.Known crc32 limits start.streams.left
  entries : session.files.entries = { start.entries with next := session.files.entries.next }
  left : session.files.streams.left =
      start.streams.left.drop (start.entries.streamsIn 0 session.files.entries.next) ∨
    session.files.streams.left = []

variable {session : ArchiveReadSession ω δ} {start : FileStreams}

namespace Watched

variable {crc32 : List UInt8 → UInt32}

theorem gives (h : session.Watched crc32 limits start) {index : ℕ} (hnext : session.nextIndex ≤ index)
    (hlt : index < session.count) {file : FileStream} {files : FileStreams}
    (hgives : session.files.Gives (index - session.nextIndex) file files) :
    FileStreams.entryAt start.streams.left start.entries index = some file ∧
      ({ session with files } : ArchiveReadSession ω δ).Watched crc32 limits start := by
  obtain ⟨hentries, haligned⟩ := h.aligned.gives hnext hlt hgives
  have hindex : session.files.entries.next + (index - session.nextIndex) = index := by
    rw [← h.aligned.nextIndex]
    omega
  have hkinds : ∀ i, session.files.entries.kind i = start.entries.kind i := by
    intro i
    rw [h.entries]
    rfl
  have hstreams : ∀ i j, session.files.entries.streamsIn i j = start.entries.streamsIn i j := by
    intro i j
    rw [h.entries]
    rfl
  have howned : ∀ n, start.entries.streamsIn 0 session.files.entries.next + session.files.owned n =
      start.entries.streamsIn 0 (session.files.entries.next + n) := by
    intro n
    unfold FileStreams.owned
    rw [hstreams]
    exact (Entries.streamsIn_add (Nat.zero_le _) (Nat.le_add_right _ _)).symm
  have hkind := hgives.kind
  rw [hindex, hkinds] at hkind
  constructor
  · unfold FileStreams.entryAt
    have hfile : { index, kind := file.kind } = file := by
      rw [← hgives.index.trans hindex]
    rcases h.left with hleft | hleft
    · rw [hleft, List.getElem?_drop, howned, hindex] at hkind
      rw [hkind, Option.map_some, hfile]
    · rw [hleft, List.getElem?_nil] at hkind
      rw [EntryKind.locate_none hkind, Option.map_some, hfile]
  · refine ⟨haligned, h.known, ?_, ?_⟩
    · show files.entries = { start.entries with next := files.entries.next }
      rw [hentries, h.entries]
    · show files.streams.left = _ ∨ files.streams.left = []
      rw [hgives.left]
      rcases h.left with hleft | hleft
      · left
        rw [hleft, List.drop_drop, howned, ← Nat.add_assoc, hindex, hentries]
      · right
        rw [hleft, List.drop_nil]

theorem loses (h : session.Watched crc32 limits start) {index : ℕ} (hnext : session.nextIndex ≤ index)
    (hlt : index < session.count) {files : FileStreams}
    (hloses : session.files.Loses (index - session.nextIndex) files) :
    ({ session with files } : ArchiveReadSession ω δ).Watched crc32 limits start := by
  obtain ⟨next, hentries, -, -⟩ := hloses.entries
  refine ⟨h.aligned.loses hnext hlt hloses, h.known, ?_, .inr hloses.left⟩
  show files.entries = { start.entries with next := files.entries.next }
  rw [hentries, h.entries]

end Watched

theorem readEntry_watched (hall : Located start.streams.left)
    (h : session.Watched env.crc32 limits start) (index : ℕ) (callback : Consumer κ) :
    Outcome (fun _ after => after.Watched env.crc32 limits start ∧ ∃ file entry,
        FileStreams.entryAt start.streams.left start.entries index = some file ∧
        ReadableEntry.fromFile file = some entry ∧ after.decoder.Served env.crc32 entry)
      (fun _ after => after.Watched env.crc32 limits start)
      (readEntry env index callback session) := by
  have hrequest := readEntry_request env h.aligned index callback
  generalize readEntry env index callback session = outcome at hrequest ⊢
  cases hrequest with
  | refused hinvalid => exact h
  | lost e files hnext hlt hloses => exact h.loses hnext hlt hloses
  | directory file files hnext hlt hgives hfile => exact (h.gives hnext hlt hgives).2
  | read file files entry hnext hlt hgives hfile =>
    obtain ⟨hentry, haligned, -, hentries, hleft⟩ := h.gives hnext hlt hgives
    have hout := EntryDecoder.read_knows env hall entry callback (fun location hcontent =>
      FileStreams.entryAt_mem hentry (ReadableEntry.fromFile_location hfile hcontent))
      session.decoder h.known
    rcases hread : EntryDecoder.read env entry callback session.decoder with ⟨e | result, decoder⟩
    · rw [hread] at hout
      exact ⟨⟨haligned.count, haligned.le⟩, hout, hentries, hleft⟩
    · rw [hread] at hout
      exact ⟨⟨⟨haligned.count, haligned.le⟩, hout.1, hentries, hleft⟩, file, entry, hentry, hfile, hout.2⟩

theorem finishFolder_watched (h : session.Watched env.crc32 limits start) :
    Outcome (fun verification after => after.Watched env.crc32 limits start ∧
        (verification = .CompleteFolders →
          ∀ run ∈ after.decoder.op.history.decoders, run.Verified env.crc32))
      (fun _ after => after.Watched env.crc32 limits start) (finishFolder env session) := by
  have hout := EntryDecoder.finish_knows env session.decoder h.known
  unfold finishFolder onDecoder Machine.focus
  rcases hrun : EntryDecoder.finish env session.decoder with ⟨e | verification, decoder⟩
  · rw [hrun] at hout
    exact ⟨⟨h.aligned.count, h.aligned.le⟩, hout, h.entries, h.left⟩
  · rw [hrun] at hout
    exact ⟨⟨⟨h.aligned.count, h.aligned.le⟩, hout.1, h.entries, h.left⟩, hout.2⟩

theorem afterCalls_watched (hall : Located start.streams.left) (calls : List (SessionCall κ))
    (h : session.Watched env.crc32 limits start) :
    (session.afterCalls env calls).Watched env.crc32 limits start := by
  refine @afterCalls_preserves ω δ κ env (fun after => after.Watched env.crc32 limits start) ?_ ?_ calls session h
  · intro session index callback hs
    have hout := readEntry_watched env hall hs index callback
    rcases hrun : readEntry env index callback session with ⟨e | result, after⟩
    · rw [hrun] at hout
      exact hout
    · rw [hrun] at hout
      exact hout.1
  · intro session hs
    have hout := finishFolder_watched env hs
    rcases hrun : finishFolder env session with ⟨e | verification, after⟩
    · rw [hrun] at hout
      exact hout
    · rw [hrun] at hout
      exact hout.1

theorem watched_of_open {archive : ArchiveSections} {config : ArchiveReadConfig} {outside : ω}
    (h : archive.readSession config outside = .ok session) :
    FileStreams.new archive.files archive.numFiles archive.streams = .ok session.files ∧
      session.Watched env.crc32 config.limits session.files := by
  have haligned := aligned_of_open h
  unfold ArchiveSections.readSession at h
  obtain ⟨⟨files, source⟩, hopen, h⟩ := Wire.except_bind_eq_ok.mp h
  have hsession := Except.ok.inj h
  unfold ArchiveSections.open at hopen
  obtain ⟨opened, hnew, hopen⟩ := Wire.except_bind_eq_ok.mp hopen
  obtain ⟨position, -, hopen⟩ := Wire.except_bind_eq_ok.mp hopen
  have hfiles : opened = files := congrArg Prod.fst (Except.ok.inj hopen)
  obtain ⟨layouts, -, -, hentries, -⟩ := FileStreams.new_eq_ok hnew
  subst hfiles
  subst hsession
  refine ⟨hnew, haligned, ⟨⟨Operation.new_sound _ _ _, le_rfl⟩, fun _ run hrun => (by cases hrun)⟩, rfl,
    .inl ?_⟩
  have hzero : opened.entries.next = 0 := by
    rw [hentries]
    rfl
  show opened.streams.left = opened.streams.left.drop (opened.entries.streamsIn 0 opened.entries.next)
  rw [hzero, Entries.streamsIn_self, List.drop_zero]

/-- Whatever was called before, and whatever the decoders did: when the folders are said to be complete,
each decoder that was started gave exactly the output of its folder and then came to its end, and every
checksum that was recorded, of a substream or of the folder, is that of what was given. -/
theorem complete_verification {archive : ArchiveSections} {config : ArchiveReadConfig} {outside : ω}
    (hopen : archive.readSession config outside = .ok session) (calls : List (SessionCall κ))
    {final : ArchiveReadSession ω δ}
    (hfinish : finishFolder env (session.afterCalls env calls) = (.ok .CompleteFolders, final) ∨
      finish env (session.afterCalls env calls) = (.ok .CompleteFolders, final)) :
    ∀ run ∈ final.decoder.op.history.decoders, run.Verified env.crc32 := by
  obtain ⟨hnew, hwatched⟩ := watched_of_open env hopen
  have hafter := afterCalls_watched env (FileStreams.new_located hnew) calls hwatched
  have hout := finishFolder_watched env hafter
  have hrun : finishFolder env (session.afterCalls env calls) = (.ok .CompleteFolders, final) :=
    hfinish.elim id id
  rw [hrun] at hout
  exact hout.2 rfl

/-! A folder of three bytes with a checksum, that is cut into two entries with checksums. -/

def packedHeader : List UInt8 :=
  [0x01, 0x04, 0x06, 0x00, 0x01, 0x09, 0x03, 0x00, 0x07, 0x0b, 0x01, 0x00, 0x01, 0x01, 0x00, 0x0c, 0x03,
    0x0a, 0x01, 0x1d, 0x80, 0xbc, 0x55, 0x00, 0x08, 0x0d, 0x02, 0x09, 0x01, 0x0a, 0x01, 0x1b, 0xdf, 0x05,
    0xa5, 0xc7, 0x21, 0xe6, 0xea, 0x00, 0x00, 0x05, 0x02, 0x00, 0x00]

def packedMemory : List UInt8 := List.replicate 32 0 ++ [1, 2, 3]

def packedSession : Except R7zError (ArchiveSections × ArchiveReadSession Unit (List UInt8)) := do
  match ← Header.resolveArchive ⟨0, packedHeader⟩ with
  | .complete header => do
    let archive ← header.sections 0
    let session ← archive.readSession unlimited ()
    return (archive, session)
  | .requiresExternalFolders _ => .error .parse

theorem packedSession_eq_ok {archive : ArchiveSections} {session : ArchiveReadSession Unit (List UInt8)}
    (h : packedSession = .ok (archive, session)) : archive.readSession unlimited () = .ok session := by
  unfold packedSession at h
  obtain ⟨resolved, -, h⟩ := Wire.except_bind_eq_ok.mp h
  cases resolved with
  | complete header =>
    obtain ⟨sections, -, h⟩ := Wire.except_bind_eq_ok.mp h
    obtain ⟨opened, hopen, h⟩ := Wire.except_bind_eq_ok.mp h
    obtain ⟨hsections, hopened⟩ := Prod.mk.inj (Except.ok.inj h)
    rw [← hsections, ← hopened]
    exact hopen
  | requiresExternalFolders pending => cases h

def oneByte : Consumer (List UInt8) :=
  .read 1 fun
    | .ok bytes => .done (.ok bytes)
    | .error e => .done (.error (.io e))

/-- Both entries are asked for, and a byte of each is read: the folder is complete. -/
theorem complete_verification_packed : ∃ archive session final, packedSession = .ok (archive, session) ∧
    finish (checking packedMemory) (session.afterCalls (checking packedMemory)
      [.readEntry 0 oneByte, .readEntry 1 oneByte]) = (.ok .CompleteFolders, final) ∧
    ∀ run ∈ final.decoder.op.history.decoders, run.Verified (checking packedMemory).crc32 := by
  have hrun : (match packedSession with
      | .error _ => false
      | .ok (_, session) => decide ((finish (checking packedMemory) (session.afterCalls (checking packedMemory)
          [.readEntry 0 oneByte, .readEntry 1 oneByte])).1.toOption = some .CompleteFolders)) = true := by
    decide +kernel
  rcases hsession : packedSession with e | ⟨archive, session⟩
  · rw [hsession] at hrun
    cases hrun
  rw [hsession] at hrun
  have hcomplete := of_decide_eq_true hrun
  rcases hfinish : finish (checking packedMemory) (session.afterCalls (checking packedMemory)
      [.readEntry 0 oneByte, .readEntry 1 oneByte]) with ⟨e | verification, final⟩
  · rw [hfinish] at hcomplete
    cases hcomplete
  · rw [hfinish] at hcomplete
    obtain rfl : verification = .CompleteFolders := Option.some.inj hcomplete
    exact ⟨archive, session, final, rfl, hfinish,
      complete_verification (checking packedMemory) (packedSession_eq_ok hsession) _ (.inr hfinish)⟩

end ArchiveReadSession

end

end R7z
