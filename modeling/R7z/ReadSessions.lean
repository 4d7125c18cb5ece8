import R7z.EntryTraversal
import R7z.Session

/-! Runs of read sessions. A request takes its index whether it succeeds or not, and what is known of
the folders never gets better once it was incomplete. -/

namespace R7z

open Effect Effect.Machine Wire

inductive SessionCall (κ : Type) where
  | readEntry (index : ℕ) (callback : Consumer κ)
  | finishFolder

section
variable {ω δ κ : Type} (env : Environment ω δ)

/-- The call; its result is of no account for the calls that follow. -/
def SessionCall.run : SessionCall κ → ArchiveReadSession.SessionM ω δ Unit
  | .readEntry index callback => do
    let _ ← ArchiveReadSession.readEntry env index callback
    pure ()
  | .finishFolder => do
    let _ ← ArchiveReadSession.finishFolder env
    pure ()

/-- What is left of a session after some calls, each of which may have failed. -/
def ArchiveReadSession.afterCalls (calls : List (SessionCall κ)) (session : ArchiveReadSession ω δ) :
    ArchiveReadSession ω δ :=
  (runAll (SessionCall.run env) calls session).2

/-! The cursor -/

theorem FileStreams.nth_entries {files : FileStreams} {n : ℕ} (h : n < files.len) :
    (FileStreams.nth n files).2.entries.next =
      if files.owned n ≤ files.streams.left.length then files.entries.next + n + 1
      else files.entries.next + n := by
  rw [FileStreams.nth_of_le h.le]
  have hadvance := StreamLocations.advanceBy_outcome (files.owned n) files.streams
  rcases hrun : StreamLocations.advanceBy (files.owned n) files.streams with ⟨e | u, streams⟩
  · rw [hrun] at hadvance
    rw [if_neg (Nat.not_le_of_lt hadvance.1)]
    rfl
  · rw [hrun] at hadvance
    rw [if_pos hadvance.2]
    dsimp only
    generalize hmid : ({ files.skipped n with streams } : FileStreams) = mid
    have hnext : mid.entries.next = files.entries.next + n := by
      rw [← hmid]
      rfl
    have hpos : 0 < mid.len := by
      rw [← hmid]
      show 0 < files.entries.count - (files.entries.next + n)
      unfold FileStreams.len Entries.len at h
      omega
    rw [← hnext]
    cases howns : mid.entries.owns mid.entries.next with
    | true =>
      rcases FileStreams.next_owns hpos howns with ⟨location, rest, kind, -, -, hrun⟩ | ⟨e, rest, -, hrun⟩
      · rw [hrun]
        rfl
      · rw [hrun]
        rfl
    | false =>
      obtain ⟨kind, -, hrun⟩ := FileStreams.next_owns_not hpos howns
      rw [hrun]
      rfl

namespace ArchiveReadSession

/-- The entries that are left start at the next index. -/
structure Aligned (session : ArchiveReadSession ω δ) : Prop where
  count : session.files.entries.count = session.count
  le : session.files.entries.next ≤ session.count

variable {session : ArchiveReadSession ω δ}

theorem Aligned.nextIndex (h : session.Aligned) : session.nextIndex = session.files.entries.next := by
  have hle := h.le
  unfold ArchiveReadSession.nextIndex FileStreams.len Entries.len
  rw [h.count]
  omega

theorem Aligned.len (h : session.Aligned) : session.files.len = session.count - session.nextIndex := by
  rw [h.nextIndex, ← h.count]
  rfl

/-- A file-like entry that has data, and that can still be asked for. -/
structure Owns (session : ArchiveReadSession ω δ) (index : ℕ) : Prop where
  next : session.nextIndex ≤ index
  lt : index < session.count
  owns : session.files.entries.owns index = true

/-- The folders that can be laid out reach the stream of the entry. -/
def Reaches (session : ArchiveReadSession ω δ) (index : ℕ) : Prop :=
  session.files.owned (index - session.nextIndex) < session.files.streams.left.length

instance (session : ArchiveReadSession ω δ) (index : ℕ) : Decidable (session.Reaches index) :=
  inferInstanceAs (Decidable (_ < _))

/-- The folders that can be laid out reach the streams of the entries before `index`. -/
def Passes (session : ArchiveReadSession ω δ) (index : ℕ) : Prop :=
  session.files.owned (index - session.nextIndex) ≤ session.files.streams.left.length

instance (session : ArchiveReadSession ω δ) (index : ℕ) : Decidable (session.Passes index) :=
  inferInstanceAs (Decidable (_ ≤ _))

/-- The outcome of a request for an entry that is still to come. -/
theorem onFiles_cases (h : session.Aligned) {index : ℕ} (hnext : session.nextIndex ≤ index)
    (hlt : index < session.count) :
    (∃ file files, onFiles (FileStreams.nth (index - session.nextIndex)) session =
        (.ok (some file), { session with files }) ∧
      session.files.Gives (index - session.nextIndex) file files) ∨
    ∃ e files, onFiles (FileStreams.nth (index - session.nextIndex)) session =
        (.error e, { session with files }) ∧
      session.files.Loses (index - session.nextIndex) files := by
  have hlen : index - session.nextIndex < session.files.len := by
    rw [h.len]
    omega
  have hout := FileStreams.nth_outcome hlen
  unfold onFiles Machine.focus
  rcases hrun : FileStreams.nth (index - session.nextIndex) session.files with ⟨e | o, files⟩
  · rw [hrun] at hout
    exact .inr ⟨e, files, rfl, hout⟩
  · rw [hrun] at hout
    obtain ⟨file, ho, hgives⟩ := hout
    exact .inl ⟨file, files, by rw [ho], hgives⟩

theorem Aligned.gives (h : session.Aligned) {index : ℕ} (hnext : session.nextIndex ≤ index)
    (hlt : index < session.count) {file : FileStream} {files : FileStreams}
    (hgives : session.files.Gives (index - session.nextIndex) file files) :
    files.entries = { session.files.entries with next := index + 1 } ∧
      ({ session with files } : ArchiveReadSession ω δ).Aligned := by
  have hindex : session.files.entries.next + (index - session.nextIndex) = index := by
    rw [← h.nextIndex]
    omega
  have hentries := hgives.entries
  rw [hindex] at hentries
  refine ⟨hentries, ?_, ?_⟩
  · rw [hentries]
    exact h.count
  · show files.entries.next ≤ session.count
    rw [hentries]
    exact hlt

theorem Aligned.loses (h : session.Aligned) {index : ℕ} (hnext : session.nextIndex ≤ index)
    (hlt : index < session.count) {files : FileStreams}
    (hloses : session.files.Loses (index - session.nextIndex) files) :
    ({ session with files } : ArchiveReadSession ω δ).Aligned := by
  obtain ⟨next, hentries, -, hle⟩ := hloses.entries
  rw [← h.nextIndex] at hle
  refine ⟨?_, ?_⟩
  · rw [hentries]
    exact h.count
  · show files.entries.next ≤ session.count
    rw [hentries]
    show next ≤ session.count
    omega

inductive Request (index : ℕ) (callback : Consumer κ) (session : ArchiveReadSession ω δ) :
    Except R7zError κ × ArchiveReadSession ω δ → Prop where
  | refused (h : ¬(session.nextIndex ≤ index ∧ index < session.count)) :
      Request index callback session
        (.error (.invalidOptions "read session requires increasing valid entry indexes"), session)
  | lost (e : R7zError) (files : FileStreams) (hnext : session.nextIndex ≤ index)
      (hlt : index < session.count) (hloses : session.files.Loses (index - session.nextIndex) files) :
      Request index callback session (.error e, { session with files })
  | directory (file : FileStream) (files : FileStreams) (hnext : session.nextIndex ≤ index)
      (hlt : index < session.count)
      (hgives : session.files.Gives (index - session.nextIndex) file files)
      (hfile : ReadableEntry.fromFile file = none) :
      Request index callback session (.error .directory, { session with files })
  | read (file : FileStream) (files : FileStreams) (entry : ReadableEntry)
      (hnext : session.nextIndex ≤ index) (hlt : index < session.count)
      (hgives : session.files.Gives (index - session.nextIndex) file files)
      (hfile : ReadableEntry.fromFile file = some entry) :
      Request index callback session ((EntryDecoder.read env entry callback session.decoder).1,
        { session with files, decoder := (EntryDecoder.read env entry callback session.decoder).2 })

theorem readEntry_request (h : session.Aligned) (index : ℕ) (callback : Consumer κ) :
    Request env index callback session (readEntry env index callback session) := by
  unfold readEntry
  rw [Machine.bind_apply]
  dsimp only [Machine.get]
  split
  · rename_i hvalid
    rcases onFiles_cases h hvalid.1 hvalid.2 with ⟨file, files, hrun, hgives⟩ | ⟨e, files, hrun, hloses⟩
    · rw [Machine.bind_of_ok hrun]
      dsimp only
      cases hfile : ReadableEntry.fromFile file with
      | none => exact .directory file files hvalid.1 hvalid.2 hgives hfile
      | some entry => exact .read file files entry hvalid.1 hvalid.2 hgives hfile
    · rw [Machine.bind_of_error hrun]
      exact .lost e files hvalid.1 hvalid.2 hloses
  · rename_i hinvalid
    exact .refused hinvalid

theorem readEntry_aligned (h : session.Aligned) (index : ℕ) (callback : Consumer κ) :
    (readEntry env index callback session).2.Aligned := by
  have hrequest := readEntry_request env h index callback
  generalize readEntry env index callback session = outcome at hrequest ⊢
  cases hrequest with
  | refused hinvalid => exact h
  | lost e files hnext hlt hloses => exact h.loses hnext hlt hloses
  | directory file files hnext hlt hgives hfile => exact (h.gives hnext hlt hgives).2
  | read file files entry hnext hlt hgives hfile =>
    exact ⟨(h.gives hnext hlt hgives).2.count, (h.gives hnext hlt hgives).2.le⟩

theorem nextIndex_readEntry (h : session.Aligned) {index : ℕ} (hnext : session.nextIndex ≤ index)
    (hlt : index < session.count) (callback : Consumer κ) :
    (readEntry env index callback session).2.nextIndex =
      if session.Passes index then index + 1 else index := by
  have hlen : index - session.nextIndex < session.files.len := by
    rw [h.len]
    omega
  have hindex : session.files.entries.next + (index - session.nextIndex) = index := by
    rw [← h.nextIndex]
    omega
  have hfiles : (readEntry env index callback session).2.files =
      (FileStreams.nth (index - session.nextIndex) session.files).2 := by
    unfold readEntry
    rw [Machine.bind_apply]
    dsimp only [Machine.get]
    rw [if_pos ⟨hnext, hlt⟩, Machine.bind_apply]
    unfold onFiles Machine.focus
    rcases FileStreams.nth (index - session.nextIndex) session.files with ⟨e | o, files⟩
    · rfl
    · cases o with
      | none => rfl
      | some file =>
        dsimp only
        cases ReadableEntry.fromFile file with
        | none => rfl
        | some entry => rfl
  rw [(readEntry_aligned env h index callback).nextIndex, hfiles, FileStreams.nth_entries hlen, hindex]
  rfl

theorem nextIndex_le_readEntry (h : session.Aligned) (index : ℕ) (callback : Consumer κ) :
    session.nextIndex ≤ (readEntry env index callback session).2.nextIndex := by
  by_cases hvalid : session.nextIndex ≤ index ∧ index < session.count
  · rw [nextIndex_readEntry env h hvalid.1 hvalid.2]
    split
    · exact hvalid.1.trans (Nat.le_succ index)
    · exact hvalid.1
  · have hrequest := readEntry_request env h index callback
    generalize readEntry env index callback session = outcome at hrequest ⊢
    cases hrequest with
    | refused hinvalid => exact le_rfl
    | lost e files hnext hlt hloses => exact absurd ⟨hnext, hlt⟩ hvalid
    | directory file files hnext hlt hgives hfile => exact absurd ⟨hnext, hlt⟩ hvalid
    | read file files entry hnext hlt hgives hfile => exact absurd ⟨hnext, hlt⟩ hvalid

theorem readEntry_count (h : session.Aligned) (index : ℕ) (callback : Consumer κ) :
    (readEntry env index callback session).2.count = session.count := by
  have hrequest := readEntry_request env h index callback
  generalize readEntry env index callback session = outcome at hrequest ⊢
  cases hrequest with
  | refused hinvalid => rfl
  | lost e files hnext hlt hloses => rfl
  | directory file files hnext hlt hgives hfile => rfl
  | read file files entry hnext hlt hgives hfile => rfl

theorem call_state (call : SessionCall κ) (session : ArchiveReadSession ω δ) :
    (call.run env session).2 = match call with
      | .readEntry index callback => (readEntry env index callback session).2
      | .finishFolder => (finishFolder env session).2 := by
  cases call with
  | readEntry index callback => exact discard_state (readEntry env index callback) session
  | finishFolder => exact discard_state (finishFolder env) session

/-- What requests and completions preserve, a run preserves. -/
theorem afterCalls_preserves {I : ArchiveReadSession ω δ → Prop}
    (hread : ∀ session index (callback : Consumer κ), I session →
      I (readEntry env index callback session).2)
    (hfinish : ∀ session, I session → I (finishFolder env session).2)
    (calls : List (SessionCall κ)) {session : ArchiveReadSession ω δ} (h : I session) :
    I (session.afterCalls env calls) := by
  refine runAll_preserves (fun call session hs => ?_) calls h
  rw [call_state]
  cases call with
  | readEntry index callback => exact hread session index callback hs
  | finishFolder => exact hfinish session hs

theorem afterCalls_aligned (calls : List (SessionCall κ)) (h : session.Aligned) :
    (session.afterCalls env calls).Aligned :=
  afterCalls_preserves (I := Aligned) env
    (fun _ index callback hs => readEntry_aligned env hs index callback)
    (fun _ hs => ⟨hs.count, hs.le⟩) calls h

theorem nextIndex_le_afterCalls (calls : List (SessionCall κ)) (h : session.Aligned) :
    session.nextIndex ≤ (session.afterCalls env calls).nextIndex := by
  have hboth := @afterCalls_preserves ω δ κ env
    (fun after => after.Aligned ∧ session.nextIndex ≤ after.nextIndex) ?_ ?_ calls session ⟨h, le_rfl⟩
  · exact hboth.2
  · rintro after index callback ⟨hafter, hle⟩
    exact ⟨readEntry_aligned env hafter index callback,
      hle.trans (nextIndex_le_readEntry env hafter index callback)⟩
  · rintro after ⟨hafter, hle⟩
    exact ⟨⟨hafter.count, hafter.le⟩, hle⟩

theorem readEntry_refused {index : ℕ} (h : index < session.nextIndex) (callback : Consumer κ) :
    readEntry env index callback session =
      (.error (.invalidOptions "read session requires increasing valid entry indexes"), session) := by
  unfold readEntry
  rw [Machine.bind_apply]
  dsimp only [Machine.get]
  rw [if_neg fun hvalid => absurd hvalid.1 (Nat.not_le_of_lt h)]
  rfl

variable (κ) in
/-- No entry up to `index` can be asked for again, whatever is called in between. -/
def Consumed (index : ℕ) (session : ArchiveReadSession ω δ) : Prop :=
  ∀ (later : List (SessionCall κ)) (i : ℕ) (callback : Consumer κ), i ≤ index →
    readEntry env i callback (session.afterCalls env later) =
      (.error (.invalidOptions "read session requires increasing valid entry indexes"),
        session.afterCalls env later)

theorem consumed_iff_passes (h : session.Aligned) {index : ℕ} (hnext : session.nextIndex ≤ index)
    (hlt : index < session.count) (callback : Consumer κ) :
    (readEntry env index callback session).2.Consumed κ env index ↔ session.Passes index := by
  have haligned := readEntry_aligned env h index callback
  have hcursor := nextIndex_readEntry env h hnext hlt callback
  have hcount := readEntry_count env h index callback
  constructor
  · intro hconsumed
    by_contra hpasses
    rw [if_neg hpasses] at hcursor
    rw [← hcount] at hlt
    generalize (readEntry env index callback session).2 = after at haligned hcursor hconsumed hlt
    -- The index is asked for again at once: now nothing is passed over.
    have hagain := hconsumed [] index callback le_rfl
    have hpass : after.Passes index := by
      unfold Passes FileStreams.owned
      rw [hcursor, Nat.sub_self, Nat.add_zero, Entries.streamsIn_self]
      exact Nat.zero_le _
    have hmoved := nextIndex_readEntry env haligned hcursor.le hlt callback
    have hsame : (readEntry env index callback after).2 = after := congrArg Prod.snd hagain
    rw [hsame, if_pos hpass, hcursor] at hmoved
    exact absurd hmoved (Nat.ne_of_lt (Nat.lt_succ_self index))
  · intro hpasses later i requested hi
    rw [if_pos hpasses] at hcursor
    have hle := nextIndex_le_afterCalls env later haligned
    exact readEntry_refused env (by omega) requested

/-! What is known of the folders -/

end ArchiveReadSession

namespace EntryDecoder

/-- Once something went wrong, it stays known. -/
def Remembers (decoder : EntryDecoder ω δ) : Prop := decoder.verification = .Incomplete

theorem combine_incomplete (verification : ReadVerification) :
    ReadVerification.combine .Incomplete verification = .Incomplete := by
  cases verification <;> rfl

theorem onOperation_remembers {α : Type} (m : OperationM ω α) :
    Meets (Remembers (δ := δ)) (onOperation m) (fun _ => Remembers) fun _ => Remembers := by
  intro decoder hs
  unfold onOperation Machine.focus
  rcases m decoder.op with ⟨e | a, op⟩
  · exact hs
  · exact hs

theorem complete_remembers (active : Option (ℕ × ActiveFolder δ)) :
    Meets (Remembers (ω := ω)) (complete env active) (fun _ => Remembers) fun _ => Remembers := by
  cases active with
  | none => exact fun _ hs => hs
  | some active =>
    refine Meets.get_bind fun decoder hs => ?_
    refine Meets.bind (Meets.attempt (onOperation_remembers (active.2.finish env decoder.mode)))
      (fun result => ?_) decoder hs
    cases result with
    | error e => exact fun _ _ => rfl
    | ok verification =>
      intro d hd
      show decoder.verification.combine verification = .Incomplete
      rw [show decoder.verification = .Incomplete from hs, combine_incomplete]

theorem readStream_remembers (entry : ℕ) (location : StreamLocation) (callback : Consumer κ) :
    Meets Remembers (readStream env entry location callback) (fun _ => Remembers)
      fun _ => Remembers := by
  have hopen : ∀ previous, Meets (Remembers (ω := ω)) (openFolder env previous location)
      (fun _ => Remembers) fun _ => Remembers := fun previous =>
    (complete_remembers env previous).bind fun _ => Meets.get_bind fun decoder hs =>
      onOperation_remembers _ decoder hs
  refine Meets.get_bind fun decoder hs => ?_
  have hclose : Meets Remembers (setCurrent none : DecoderM ω δ Unit) (fun _ => Remembers)
      fun _ => Remembers := fun _ hs => hs
  refine Meets.bind hclose (fun _ => ?_) decoder hs
  refine Meets.bind (Q := fun _ => Remembers) ?_ fun active =>
    (onOperation_remembers _).bind fun r => ?_
  · cases decoder.current with
    | none => exact hopen none
    | some active =>
      intro d hd
      exact Outcome.ite (fun _ => hd) fun _ => hopen _ d hd
  · exact fun _ hs => hs

theorem read_remembers (entry : ReadableEntry) (callback : Consumer κ) :
    Meets Remembers (read env entry callback) (fun _ => Remembers) fun _ => Remembers := by
  refine Meets.onError (Meets.mono ((onOperation_remembers (check env)).bind fun _ => ?_)
    (fun _ hs => hs) (fun _ _ hs => hs) fun _ _ _ => rfl)
  cases entry.content with
  | Empty => exact onOperation_remembers _
  | Stream location => exact readStream_remembers env entry.index location callback

theorem read_fails (entry : ReadableEntry) (callback : Consumer κ) {decoder after : EntryDecoder ω δ}
    {e : R7zError} (h : read env entry callback decoder = (.error e, after)) : after.Remembers := by
  unfold read Machine.onError at h
  dsimp only at h
  split at h
  · cases h
  · cases h
    rfl

theorem finish_remembers : Meets Remembers (finish env)
    (fun verification decoder => verification = .Incomplete ∧ decoder.Remembers)
    fun _ (decoder : EntryDecoder ω δ) => decoder.Remembers := by
  refine Meets.get_bind fun decoder hs => ?_
  have hclose : Meets Remembers (setCurrent none : DecoderM ω δ Unit) (fun _ => Remembers)
      fun _ => Remembers := fun _ hs => hs
  refine Meets.bind hclose (fun _ => ?_) decoder hs
  refine (complete_remembers env decoder.current).bind fun _ =>
    (onOperation_remembers _).bind fun _ => Meets.get_bind fun d hd => ?_
  exact ⟨hd, hd⟩

end EntryDecoder

namespace ArchiveReadSession

variable {session : ArchiveReadSession ω δ}

theorem afterCalls_remembers (calls : List (SessionCall κ)) (h : session.Aligned)
    (hs : session.decoder.Remembers) : (session.afterCalls env calls).decoder.Remembers := by
  have hboth := @afterCalls_preserves ω δ κ env
    (fun session => session.Aligned ∧ session.decoder.Remembers) ?_ ?_ calls session ⟨h, hs⟩
  · exact hboth.2
  · rintro session index callback ⟨h, hs⟩
    refine ⟨readEntry_aligned env h index callback, ?_⟩
    have hrequest := readEntry_request env h index callback
    generalize readEntry env index callback session = outcome at hrequest ⊢
    cases hrequest with
    | refused hinvalid => exact hs
    | lost e files hnext hlt hloses => exact hs
    | directory file files hnext hlt hgives hfile => exact hs
    | read file files entry hnext hlt hgives hfile =>
      have hout := EntryDecoder.read_remembers env entry callback session.decoder hs
      dsimp only
      rcases hrun : EntryDecoder.read env entry callback session.decoder with ⟨e | a, decoder⟩
      · rw [hrun] at hout
        exact hout
      · rw [hrun] at hout
        exact hout
  · rintro session ⟨h, hs⟩
    refine ⟨⟨h.count, h.le⟩, ?_⟩
    have hout := EntryDecoder.finish_remembers env session.decoder hs
    show (EntryDecoder.finish env session.decoder).2.Remembers
    rcases hrun : EntryDecoder.finish env session.decoder with ⟨e | a, decoder⟩
    · rw [hrun] at hout
      exact hout
    · rw [hrun] at hout
      exact hout.2

theorem Owns.entry {index : ℕ} (howns : session.Owns index) (h : session.Aligned) :
    session.files.entries.next + (index - session.nextIndex) = index := by
  have hnext := howns.next
  rw [← h.nextIndex]
  omega

/-- The folders do not reach the data of an entry whose request is lost. -/
theorem Owns.loses {index : ℕ} (howns : session.Owns index) (h : session.Aligned) {files : FileStreams}
    (hloses : session.files.Loses (index - session.nextIndex) files) : ¬session.Reaches index := by
  have hshort := hloses.short
  rw [FileStreams.owned_succ, howns.entry h, howns.owns, if_pos rfl] at hshort
  unfold Reaches
  omega

theorem Owns.gives {index : ℕ} (howns : session.Owns index) (h : session.Aligned) {file : FileStream}
    {files : FileStreams} (hgives : session.files.Gives (index - session.nextIndex) file files) :
    session.Reaches index ∧ ∃ entry, ReadableEntry.fromFile file = some entry := by
  have hkind := hgives.kind
  have hown : (session.files.entries.kind index).hasStream = true := howns.owns
  rw [howns.entry h] at hkind
  cases hat : session.files.streams.left[session.files.owned (index - session.nextIndex)]? with
  | none =>
    rw [hat] at hkind
    cases hentry : session.files.entries.kind index with
    | file _ =>
      rw [hentry] at hkind
      cases hkind
    | symlink _ =>
      rw [hentry] at hkind
      cases hkind
    | _ =>
      rw [hentry] at hown
      cases hown
  | some location =>
    rw [hat] at hkind
    refine ⟨(List.getElem?_eq_some_iff.mp hat).1, ?_⟩
    cases hentry : session.files.entries.kind index with
    | file _ =>
      rw [hentry] at hkind
      refine ⟨{ index := file.index, content := .Stream location }, ?_⟩
      unfold ReadableEntry.fromFile
      rw [← Option.some.inj hkind]
    | symlink _ =>
      rw [hentry] at hkind
      refine ⟨{ index := file.index, content := .Stream location }, ?_⟩
      unfold ReadableEntry.fromFile
      rw [← Option.some.inj hkind]
    | _ =>
      rw [hentry] at hown
      cases hown

theorem readEntry_fails {index : ℕ} (howns : session.Owns index) (h : session.Aligned)
    (hreaches : session.Reaches index) {callback : Consumer κ} {e : R7zError}
    {failed : ArchiveReadSession ω δ} (hread : readEntry env index callback session = (.error e, failed)) :
    failed.decoder.Remembers := by
  have hrequest := readEntry_request env h index callback
  generalize readEntry env index callback session = outcome at hrequest hread
  cases hrequest with
  | refused hinvalid => exact absurd ⟨howns.next, howns.lt⟩ hinvalid
  | lost e files hnext hlt hloses => exact absurd hreaches (howns.loses h hloses)
  | directory file files hnext hlt hgives hfile =>
    obtain ⟨-, entry, hentry⟩ := howns.gives h hgives
    rw [hfile] at hentry
    cases hentry
  | read file files entry hnext hlt hgives hfile =>
    obtain ⟨hresult, hstate⟩ := Prod.mk.inj hread
    rw [← hstate]
    exact EntryDecoder.read_fails env entry callback (Prod.ext hresult rfl)

theorem readEntry_unreached {index : ℕ} (howns : session.Owns index) (h : session.Aligned)
    (hreaches : ¬session.Reaches index) (callback : Consumer κ) :
    (readEntry env index callback session).2.decoder = session.decoder := by
  have hrequest := readEntry_request env h index callback
  generalize readEntry env index callback session = outcome at hrequest ⊢
  cases hrequest with
  | refused hinvalid => rfl
  | lost e files hnext hlt hloses => rfl
  | directory file files hnext hlt hgives hfile => rfl
  | read file files entry hnext hlt hgives hfile => exact absurd (howns.gives h hgives).1 hreaches

/-! Sessions of an archive -/

theorem aligned_of_open {archive : ArchiveSections} {config : ArchiveReadConfig} {outside : ω}
    (h : archive.readSession config outside = .ok session) : session.Aligned := by
  unfold ArchiveSections.readSession at h
  obtain ⟨⟨files, source⟩, hopen, h⟩ := except_bind_eq_ok.mp h
  have hsession := Except.ok.inj h
  unfold ArchiveSections.open at hopen
  obtain ⟨opened, hnew, hopen⟩ := except_bind_eq_ok.mp hopen
  obtain ⟨start, hstart, hopen⟩ := except_bind_eq_ok.mp hopen
  have hfiles : opened = files := congrArg Prod.fst (Except.ok.inj hopen)
  obtain ⟨layouts, -, -, hentries, -⟩ := FileStreams.new_eq_ok hnew
  rw [← hsession]
  refine ⟨?_, ?_⟩
  · show files.entries.count = archive.numFiles
    rw [← hfiles, hentries]
    rfl
  · show files.entries.next ≤ archive.numFiles
    rw [← hfiles, hentries]
    exact Nat.zero_le _

/-! Two archives: in the first one a folder of three bytes holds one entry, in the second one two
entries of which the first is to have nine bytes, and an empty file follows. -/

def singleHeader : List UInt8 :=
  [0x01, 0x04, 0x06, 0x00, 0x01, 0x09, 0x03, 0x00, 0x07, 0x0b, 0x01, 0x00, 0x01, 0x01, 0x00, 0x0c, 0x03,
    0x00, 0x00, 0x05, 0x01, 0x00, 0x00]

def splitHeader : List UInt8 :=
  [0x01, 0x04, 0x06, 0x00, 0x01, 0x09, 0x03, 0x00, 0x07, 0x0b, 0x01, 0x00, 0x01, 0x01, 0x00, 0x0c, 0x03,
    0x00, 0x08, 0x0d, 0x02, 0x09, 0x09, 0x00, 0x00, 0x05, 0x03, 0x0e, 0x01, 0x20, 0x0f, 0x01, 0x80, 0x00,
    0x00]

def unlimited : ArchiveReadConfig :=
  { password := none, hasControl := false
    limits := { maxMetadataBytes := 1024, maxDecoderWorkingSetBytes := none
                maxTotalDecodedBytes := none, maxTotalKdfCycles := none } }

def sessionOf (header : List UInt8) : Except R7zError (ArchiveSections × ArchiveReadSession Unit Unit) := do
  match ← Header.resolveArchive ⟨0, header⟩ with
  | .complete header => do
    let archive ← header.sections 0
    let session ← archive.readSession unlimited ()
    return (archive, session)
  | .requiresExternalFolders _ => .error .parse

theorem sessionOf_eq_ok {header : List UInt8} {archive : ArchiveSections}
    {session : ArchiveReadSession Unit Unit} (h : sessionOf header = .ok (archive, session)) :
    archive.readSession unlimited () = .ok session := by
  unfold sessionOf at h
  obtain ⟨resolved, -, h⟩ := except_bind_eq_ok.mp h
  cases resolved with
  | complete header =>
    obtain ⟨sections, -, h⟩ := except_bind_eq_ok.mp h
    obtain ⟨opened, hopen, h⟩ := except_bind_eq_ok.mp h
    obtain ⟨hsections, hopened⟩ := Prod.mk.inj (Except.ok.inj h)
    rw [← hsections, ← hopened]
    exact hopen
  | requiresExternalFolders pending => cases h

/-- Whatever was called before: a request for an entry that is still to come uses its index up exactly
when no stream of the entries it passes over is lost. -/
theorem index_consumed_iff {archive : ArchiveSections} {config : ArchiveReadConfig} {outside : ω}
    (hopen : archive.readSession config outside = .ok session) (calls : List (SessionCall κ)) {index : ℕ}
    (hnext : (session.afterCalls env calls).nextIndex ≤ index)
    (hlt : index < (session.afterCalls env calls).count) (callback : Consumer κ) :
    (readEntry env index callback (session.afterCalls env calls)).2.Consumed κ env index ↔
      (session.afterCalls env calls).Passes index :=
  consumed_iff_passes env (afterCalls_aligned env calls (aligned_of_open hopen)) hnext hlt callback

/-- A stream that is passed over cannot be had, and the same index is asked for twice. -/
theorem index_taken_twice : ∃ archive session, sessionOf splitHeader = .ok (archive, session) ∧
    session.nextIndex ≤ 2 ∧ 2 < session.count ∧
    (readEntry unreadable 2 (.done (.ok ())) session).1.isOk = false ∧
    (readEntry unreadable 2 (.done (.ok ()))
      (readEntry unreadable 2 (.done (.ok ())) session).2).1.isOk = true := by
  have hrun : (match sessionOf splitHeader with
      | .error _ => false
      | .ok (_, session) => decide (session.nextIndex ≤ 2 ∧ 2 < session.count ∧
          (readEntry unreadable 2 (.done (.ok ())) session).1.isOk = false ∧
          (readEntry unreadable 2 (.done (.ok ()))
            (readEntry unreadable 2 (.done (.ok ())) session).2).1.isOk = true)) = true := by
    decide +kernel
  rcases hsession : sessionOf splitHeader with e | ⟨archive, session⟩
  · rw [hsession] at hrun
    cases hrun
  · rw [hsession] at hrun
    exact ⟨archive, session, rfl, of_decide_eq_true hrun⟩

theorem index_consumed_single : ∃ archive session, sessionOf singleHeader = .ok (archive, session) ∧
    (readEntry unreadable 0 (.done (.ok ())) session).2.Consumed Unit unreadable 0 := by
  have hrun : (match sessionOf singleHeader with
      | .error _ => false
      | .ok (_, session) => decide (session.nextIndex ≤ 0 ∧ 0 < session.count ∧ session.Passes 0)) =
      true := by decide +kernel
  rcases hsession : sessionOf singleHeader with e | ⟨archive, session⟩
  · rw [hsession] at hrun
    cases hrun
  · rw [hsession] at hrun
    obtain ⟨hnext, hlt, hpasses⟩ := of_decide_eq_true hrun
    exact ⟨archive, session, rfl, (index_consumed_iff unreadable (sessionOf_eq_ok hsession) []
      hnext hlt (.done (.ok ()))).mpr hpasses⟩

/-- Whatever was called before and is called after: a request for data that fails is remembered when
the folders that can be laid out reach the data; when they do not, the decoder never learns of it. -/
theorem failed_read_remembered {archive : ArchiveSections} {config : ArchiveReadConfig} {outside : ω}
    (hopen : archive.readSession config outside = .ok session) (before after : List (SessionCall κ))
    {index : ℕ} {callback : Consumer κ} {e : R7zError} {failed : ArchiveReadSession ω δ}
    (howns : (session.afterCalls env before).Owns index)
    (hread : readEntry env index callback (session.afterCalls env before) = (.error e, failed)) :
    ((session.afterCalls env before).Reaches index → ∀ verification final,
      finishFolder env (failed.afterCalls env after) = (.ok verification, final) →
        verification = .Incomplete) ∧
    (¬(session.afterCalls env before).Reaches index →
      failed.decoder = (session.afterCalls env before).decoder) := by
  have h := afterCalls_aligned env before (aligned_of_open hopen)
  constructor
  · intro hreaches verification final hfinish
    have hfailed := readEntry_aligned env h index callback
    rw [hread] at hfailed
    have hremembers := afterCalls_remembers env after hfailed (readEntry_fails env howns h hreaches hread)
    have hout := EntryDecoder.finish_remembers env (failed.afterCalls env after).decoder hremembers
    have hresult : (EntryDecoder.finish env (failed.afterCalls env after).decoder).1 =
        .ok verification := congrArg Prod.fst hfinish
    rcases hrun : EntryDecoder.finish env (failed.afterCalls env after).decoder with ⟨e | v, decoder⟩
    · rw [hrun] at hresult
      cases hresult
    · rw [hrun] at hresult hout
      rw [← Except.ok.inj hresult]
      exact hout.1
  · intro hreaches
    have hkept := readEntry_unreached env howns h hreaches callback
    rw [hread] at hkept
    exact hkept

/-- The folder of the entry cannot be laid out, and what is known of the folders stays complete. -/
theorem failed_read_forgotten : ∃ archive session failed final e,
    sessionOf splitHeader = .ok (archive, session) ∧ session.Owns 0 ∧
    readEntry unreadable 0 (.done (.ok ())) session = (.error e, failed) ∧
    finishFolder unreadable failed = (.ok .CompleteFolders, final) := by
  have hrun : (match sessionOf splitHeader with
      | .error _ => false
      | .ok (_, session) => match readEntry unreadable 0 (.done (.ok ())) session with
        | (.ok _, _) => false
        | (.error _, failed) => decide (session.nextIndex ≤ 0 ∧ 0 < session.count ∧
          session.files.entries.owns 0 = true ∧
          (finishFolder unreadable failed).1.toOption = some .CompleteFolders)) = true := by
    decide +kernel
  rcases hsession : sessionOf splitHeader with e | ⟨archive, session⟩
  · rw [hsession] at hrun
    cases hrun
  rw [hsession] at hrun
  dsimp only at hrun
  rcases hread : readEntry unreadable 0 (.done (.ok ())) session with ⟨e | u, failed⟩
  · rw [hread] at hrun
    obtain ⟨hnext, hlt, howns, hfinish⟩ := of_decide_eq_true hrun
    rcases hresult : finishFolder unreadable failed with ⟨e' | verification, final⟩
    · rw [hresult] at hfinish
      cases hfinish
    · rw [hresult] at hfinish
      have hcomplete : verification = .CompleteFolders := Option.some.inj hfinish
      exact ⟨archive, session, failed, final, e, rfl, ⟨hnext, hlt, howns⟩, hread, by rw [hresult, hcomplete]⟩
  · rw [hread] at hrun
    cases hrun

theorem failed_read_single : ∃ archive session failed e,
    sessionOf singleHeader = .ok (archive, session) ∧
    readEntry unreadable 0 (.done (.ok ())) session = (.error e, failed) ∧
    ∀ verification final, finishFolder unreadable failed = (.ok verification, final) →
      verification = .Incomplete := by
  have hrun : (match sessionOf singleHeader with
      | .error _ => false
      | .ok (_, session) => match readEntry unreadable 0 (.done (.ok ())) session with
        | (.ok _, _) => false
        | (.error _, _) => decide (session.nextIndex ≤ 0 ∧ 0 < session.count ∧
          session.files.entries.owns 0 = true ∧ session.Reaches 0)) = true := by
    decide +kernel
  rcases hsession : sessionOf singleHeader with e | ⟨archive, session⟩
  · rw [hsession] at hrun
    cases hrun
  rw [hsession] at hrun
  dsimp only at hrun
  rcases hread : readEntry unreadable 0 (.done (.ok ())) session with ⟨e | u, failed⟩
  · rw [hread] at hrun
    obtain ⟨hnext, hlt, howns, hreaches⟩ := of_decide_eq_true hrun
    exact ⟨archive, session, failed, e, rfl, hread,
      (failed_read_remembered unreadable (sessionOf_eq_ok hsession) [] [] ⟨hnext, hlt, howns⟩ hread).1
        hreaches⟩
  · rw [hread] at hrun
    cases hrun

end ArchiveReadSession

end

end R7z
