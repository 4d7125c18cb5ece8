import R7z.FolderOutput

/-! Runs of a read session, request by request. A request that goes well offers the bytes of its entry to
the callback, whatever was requested before and however much of it was read; a request for an index that
has gone by is refused. -/

namespace R7z

open Effect Effect.Machine

section
variable {ω δ κ : Type} (env : Environment ω δ)

namespace ArchiveReadSession

variable {session : ArchiveReadSession ω δ} {limits : ResourceLimits} {start : FileStreams}
  {packs : PackedSource} {password : Option String}

/-- A request that went well: the callback was invoked once, for the entry, and was offered its bytes. -/
structure Serves (start : FileStreams) (packs : PackedSource) (password : Option String) (index : ℕ)
    (session after : ArchiveReadSession ω δ) : Prop where
  entry : ∃ file entry given,
    FileStreams.entryAt start.streams.left start.entries index = some file ∧
    ReadableEntry.fromFile file = some entry ∧
    after.decoder.op.history.callbacks = given :: session.decoder.op.history.callbacks ∧
    given.entry = index ∧ after.decoder.Served env.crc32 entry ∧
    ∀ output, env.Decodes packs password output → given.Offered (entry.bytes output)

theorem readEntry_recorded (h : session.Aligned) (hs : session.decoder.Recorded env packs password)
    (index : ℕ) (callback : Consumer κ) :
    (readEntry env index callback session).2.decoder.Recorded env packs password := by
  have hrequest := readEntry_request env h index callback
  generalize readEntry env index callback session = outcome at hrequest ⊢
  cases hrequest with
  | refused hinvalid => exact hs
  | lost e files hnext hlt hloses => exact hs
  | directory file files hnext hlt hgives hfile => exact hs
  | read file files entry hnext hlt hgives hfile =>
    have hout := EntryDecoder.read_recorded env entry callback session.decoder hs
    dsimp only
    rcases hrun : EntryDecoder.read env entry callback session.decoder with ⟨e | a, decoder⟩
    · rw [hrun] at hout
      exact hout
    · rw [hrun] at hout
      exact hout

theorem afterCalls_recorded (calls : List (SessionCall κ)) (h : session.Aligned)
    (hs : session.decoder.Recorded env packs password) :
    (session.afterCalls env calls).decoder.Recorded env packs password := by
  have hboth := @afterCalls_preserves ω δ κ env
    (fun after => after.Aligned ∧ after.decoder.Recorded env packs password) ?_ ?_ calls session ⟨h, hs⟩
  · exact hboth.2
  · rintro after index callback ⟨hafter, hrecorded⟩
    exact ⟨readEntry_aligned env hafter index callback, readEntry_recorded env hafter hrecorded index callback⟩
  · rintro after ⟨hafter, hrecorded⟩
    refine ⟨⟨hafter.count, hafter.le⟩, ?_⟩
    have hout := EntryDecoder.finish_recorded env after.decoder hrecorded
    show (EntryDecoder.finish env after.decoder).2.Recorded env packs password
    rcases hrun : EntryDecoder.finish env after.decoder with ⟨e | a, decoder⟩
    · rw [hrun] at hout
      exact hout
    · rw [hrun] at hout
      exact hout

theorem recorded_of_open {archive : ArchiveSections} {config : ArchiveReadConfig} {outside : ω}
    (h : archive.readSession config outside = .ok session) :
    session.decoder.Recorded env session.decoder.source config.password := by
  unfold ArchiveSections.readSession at h
  obtain ⟨⟨files, source⟩, -, h⟩ := Wire.except_bind_eq_ok.mp h
  have hsession := Except.ok.inj h
  subst hsession
  exact ⟨rfl, fun index active hcurrent => (by cases hcurrent), rfl⟩

theorem readEntry_serves (hall : Located start.streams.left)
    (h : session.Watched env.crc32 limits start) (hs : session.decoder.Recorded env packs password)
    {index : ℕ} {callback : Consumer κ} {result : κ} {after : ArchiveReadSession ω δ}
    (hrun : readEntry env index callback session = (.ok result, after)) :
    Serves env start packs password index session after := by
  have hserved := readEntry_watched env hall h index callback
  rw [hrun] at hserved
  obtain ⟨-, file, entry, hentry, hfile, hserved⟩ := hserved
  have hrequest := readEntry_request env h.aligned index callback
  rw [hrun] at hrequest
  generalize houtcome : ((.ok result, after) : Except R7zError κ × ArchiveReadSession ω δ) = outcome at hrequest
  cases hrequest with
  | refused hinvalid => cases houtcome
  | lost e files hnext hlt hloses => cases houtcome
  | directory file files hnext hlt hgives hfile => cases houtcome
  | read file' files entry' hnext hlt hgives hfile' =>
    obtain ⟨hentry', -⟩ := h.gives hnext hlt hgives
    obtain rfl : file = file' := Option.some.inj (hentry.symm.trans hentry')
    obtain rfl : entry = entry' := Option.some.inj (hfile.symm.trans hfile')
    obtain ⟨hresult, hafter⟩ := Prod.mk.inj houtcome
    obtain ⟨given, hcallbacks, hgiven, hoffered⟩ := EntryDecoder.read_offers env hall (fun location hcontent =>
      FileStreams.entryAt_mem hentry (ReadableEntry.fromFile_location hfile hcontent)) h.known hs
      (Prod.ext hresult.symm rfl)
    have hindex : given.entry = index := by
      have hfileIndex : file.index = index := by
        obtain ⟨kind, -, rfl⟩ := Option.map_eq_some_iff.mp hentry
        rfl
      have hentryIndex : entry.index = file.index := by
        unfold ReadableEntry.fromFile at hfile
        split at hfile <;> cases hfile
        · rfl
        · rfl
        · rfl
        · rfl
      exact hgiven.trans (hentryIndex.trans hfileIndex)
    exact ⟨file, entry, given, hentry, hfile, by rw [hafter]; exact hcallbacks, hindex, hserved, hoffered⟩

/-! The order of requests -/

/-- Every request of the run finds the streams of the entries that it passes over. -/
def Passing (calls : List (SessionCall κ)) (session : ArchiveReadSession ω δ) : Prop :=
  ∀ before call after, calls = before ++ call :: after → ∀ index callback,
    call = SessionCall.readEntry index callback → (session.afterCalls env before).nextIndex ≤ index →
      index < session.count → (session.afterCalls env before).Passes index

theorem afterCalls_count (calls : List (SessionCall κ)) (h : session.Aligned) :
    (session.afterCalls env calls).count = session.count := by
  have hboth := @afterCalls_preserves ω δ κ env (fun after => after.Aligned ∧ after.count = session.count)
    ?_ ?_ calls session ⟨h, rfl⟩
  · exact hboth.2
  · rintro after index callback ⟨hafter, hcount⟩
    exact ⟨readEntry_aligned env hafter index callback, (readEntry_count env hafter index callback).trans hcount⟩
  · rintro after ⟨hafter, hcount⟩
    exact ⟨⟨hafter.count, hafter.le⟩, hcount⟩

theorem afterCalls_append (before after : List (SessionCall κ)) (session : ArchiveReadSession ω δ) :
    session.afterCalls env (before ++ after) = (session.afterCalls env before).afterCalls env after := by
  unfold afterCalls
  rw [runAll_append]

theorem requested_lt_nextIndex (h : session.Aligned) {calls : List (SessionCall κ)}
    (hpassing : session.Passing env calls) {j : ℕ} {callback : Consumer κ}
    (hmem : SessionCall.readEntry j callback ∈ calls) (hlt : j < session.count) :
    j < (session.afterCalls env calls).nextIndex := by
  obtain ⟨before, after, hcalls⟩ := List.append_of_mem hmem
  have haligned := afterCalls_aligned env before h
  have hcount := afterCalls_count env before h
  have hstep : j < (readEntry env j callback (session.afterCalls env before)).2.nextIndex := by
    rcases Nat.lt_or_ge j (session.afterCalls env before).nextIndex with hgone | hnext
    · exact hgone.trans_le (nextIndex_le_readEntry env haligned j callback)
    · have hpasses := hpassing before _ after hcalls j callback rfl hnext hlt
      rw [nextIndex_readEntry env haligned hnext (hcount ▸ hlt) callback, if_pos hpasses]
      exact Nat.lt_succ_self j
  have hrest := nextIndex_le_afterCalls env after (readEntry_aligned env haligned j callback)
  rw [hcalls, afterCalls_append]
  have hhead : (session.afterCalls env before).afterCalls env (SessionCall.readEntry j callback :: after) =
      ((readEntry env j callback (session.afterCalls env before)).2).afterCalls env after := by
    show (runAll (SessionCall.run env) after _).2 = _
    rw [call_state]
    rfl
  rw [hhead]
  exact hstep.trans_le hrest

theorem readEntry_invalid {index : ℕ} (h : ¬(session.nextIndex ≤ index ∧ index < session.count))
    (callback : Consumer κ) : readEntry env index callback session =
      (.error (.invalidOptions "read session requires increasing valid entry indexes"), session) := by
  unfold readEntry
  rw [Machine.bind_apply]
  dsimp only [Machine.get]
  rw [if_neg h]
  rfl

section
variable {archive : ArchiveSections} {config : ArchiveReadConfig} {outside : ω}

theorem afterCalls_serves (hopen : archive.readSession config outside = .ok session) (calls : List (SessionCall κ))
    {index : ℕ} {callback : Consumer κ} {result : κ} {after : ArchiveReadSession ω δ}
    (hrun : readEntry env index callback (session.afterCalls env calls) = (.ok result, after)) :
    Serves env session.files session.decoder.source config.password index (session.afterCalls env calls) after := by
  obtain ⟨hnew, hwatched⟩ := watched_of_open env hopen
  exact readEntry_serves env (FileStreams.new_located hnew)
    (afterCalls_watched env (FileStreams.new_located hnew) calls hwatched)
    (afterCalls_recorded env calls (aligned_of_open hopen) (recorded_of_open env hopen)) hrun

/-- An index out of range, or not above one that a run has requested. -/
def Stale (session : ArchiveReadSession ω δ) (calls : List (SessionCall κ)) (index : ℕ) : Prop :=
  session.count ≤ index ∨ ∃ j requested, SessionCall.readEntry j requested ∈ calls ∧ j < session.count ∧ index ≤ j

theorem afterCalls_refuses (hopen : archive.readSession config outside = .ok session) (calls : List (SessionCall κ))
    (hpassing : session.Passing env calls) {index : ℕ} (hstale : session.Stale calls index) (callback : Consumer κ) :
    readEntry env index callback (session.afterCalls env calls) =
      (.error (.invalidOptions "read session requires increasing valid entry indexes"),
        session.afterCalls env calls) := by
  have haligned := aligned_of_open hopen
  refine readEntry_invalid env (fun hvalid => ?_) callback
  rcases hstale with hcount | ⟨j, requested, hmem, hlt, hle⟩
  · rw [afterCalls_count env calls haligned] at hvalid
    omega
  · have hgone := requested_lt_nextIndex env haligned hpassing hmem hlt
    omega

end

/-- Whatever was called before: a request that goes well offers the callback the bytes of its entry, cut
from the output of the entry's folder, and invokes it once. When no request lost the streams before its
entry, a request is refused, with the session as it was, if its index is out of range or not above those
that were requested. -/
theorem session_reads {archive : ArchiveSections} {config : ArchiveReadConfig} {outside : ω}
    (hopen : archive.readSession config outside = .ok session) (calls : List (SessionCall κ)) :
    (∀ index (callback : Consumer κ) result after,
      readEntry env index callback (session.afterCalls env calls) = (.ok result, after) →
        Serves env session.files session.decoder.source config.password index
          (session.afterCalls env calls) after) ∧
    (session.Passing env calls → ∀ index (callback : Consumer κ),
      (session.count ≤ index ∨ ∃ j requested, SessionCall.readEntry j requested ∈ calls ∧
        j < session.count ∧ index ≤ j) →
      readEntry env index callback (session.afterCalls env calls) =
        (.error (.invalidOptions "read session requires increasing valid entry indexes"),
          session.afterCalls env calls)) :=
  ⟨fun _ _ _ _ hrun => afterCalls_serves env hopen calls hrun,
    fun hpassing _ callback hstale => afterCalls_refuses env hopen calls hpassing hstale callback⟩

/-- A byte of the first entry is read; the second one is then offered as a whole, and the first one cannot
be had again. -/
theorem session_reads_packed : ∃ archive session after, packedSession = .ok (archive, session) ∧
    Serves (checking packedMemory) session.files session.decoder.source none 1
      (session.afterCalls (checking packedMemory) [.readEntry 0 oneByte]) after ∧
    readEntry (checking packedMemory) 0 oneByte
        (session.afterCalls (checking packedMemory) [.readEntry 0 oneByte]) =
      (.error (.invalidOptions "read session requires increasing valid entry indexes"),
        session.afterCalls (checking packedMemory) [.readEntry 0 oneByte]) := by
  have hrun : (match packedSession with
      | .error _ => false
      | .ok (_, session) => decide (0 < session.count ∧ session.Passes 0 ∧
          (readEntry (checking packedMemory) 1 oneByte
            (session.afterCalls (checking packedMemory) [.readEntry 0 oneByte])).1.isOk = true)) = true := by
    decide +kernel
  rcases hsession : packedSession with e | ⟨archive, session⟩
  · rw [hsession] at hrun
    cases hrun
  rw [hsession] at hrun
  obtain ⟨hcount, hpasses, hread⟩ := of_decide_eq_true hrun
  obtain ⟨hserves, hrefused⟩ := session_reads (checking packedMemory) (packedSession_eq_ok hsession)
    [SessionCall.readEntry 0 oneByte]
  rcases hresult : readEntry (checking packedMemory) 1 oneByte
      (session.afterCalls (checking packedMemory) [.readEntry 0 oneByte]) with ⟨e | result, after⟩
  · rw [hresult] at hread
    cases hread
  refine ⟨archive, session, after, rfl, hserves 1 oneByte result after hresult,
    hrefused ?_ 0 oneByte (.inr ⟨0, oneByte, List.mem_singleton_self _, hcount, le_rfl⟩)⟩
  intro before call calls hcalls index callback hcall hnext hlt
  rcases List.singleton_eq_append_iff.mp hcalls with ⟨rfl, hcons⟩ | ⟨-, hcons⟩
  · cases hcons
    cases hcall
    exact hpasses
  · cases hcons

theorem Passing.front {before after : List (SessionCall κ)} (h : session.Passing env (before ++ after)) :
    session.Passing env before :=
  fun first call rest hbefore => h first call (rest ++ after) (by rw [hbefore, List.append_assoc, List.cons_append])

/-- Every request of a run that goes well offers its own entry, and every request for a stale index is refused
with the session as it was. -/
structure ReadsRight (start : FileStreams) (packs : PackedSource) (password : Option String)
    (calls : List (SessionCall κ)) (session : ArchiveReadSession ω δ) : Prop where
  each : ∀ before index callback after, calls = before ++ SessionCall.readEntry index callback :: after →
    (∀ result next, readEntry env index callback (session.afterCalls env before) = (.ok result, next) →
      Serves env start packs password index (session.afterCalls env before) next) ∧
    (session.Stale before index → ∃ e, readEntry env index callback (session.afterCalls env before) =
      (.error e, session.afterCalls env before))

/-- A run in which no request loses the streams before its entry reads right. -/
theorem run_reads_right {archive : ArchiveSections} {config : ArchiveReadConfig} {outside : ω}
    (hopen : archive.readSession config outside = .ok session) (calls : List (SessionCall κ))
    (hpassing : session.Passing env calls) :
    session.ReadsRight env session.files session.decoder.source config.password calls := by
  refine ⟨fun before index callback after hcalls => ⟨fun _ _ hrun => afterCalls_serves env hopen before hrun, ?_⟩⟩
  intro hstale
  rw [hcalls] at hpassing
  exact ⟨_, afterCalls_refuses env hopen before (hpassing.front env) hstale callback⟩

theorem passing_cons {call : SessionCall κ} {calls : List (SessionCall κ)} (h : session.Aligned)
    (hhead : ∀ index callback, call = SessionCall.readEntry index callback → session.nextIndex ≤ index →
      index < session.count → session.Passes index)
    (htail : (session.afterCalls env [call]).Passing env calls) : session.Passing env (call :: calls) := by
  intro before made after hcalls index callback hmade hnext hlt
  cases before with
  | nil =>
    cases hcalls
    exact hhead index callback hmade hnext hlt
  | cons first before =>
    cases hcalls
    have hfront : session.afterCalls env (call :: before) = (session.afterCalls env [call]).afterCalls env before :=
      afterCalls_append env [call] before session
    rw [hfront] at hnext ⊢
    rw [← afterCalls_count env [call] h] at hlt
    exact htail before made after rfl index callback hmade hnext hlt

/-- Of the first entry one byte is read, then the second entry, and then it is asked for again. -/
theorem run_reads_right_packed : ∃ archive session, packedSession = .ok (archive, session) ∧
    session.ReadsRight (checking packedMemory) session.files session.decoder.source none
      [.readEntry 0 oneByte, .readEntry 1 oneByte, .readEntry 1 oneByte] := by
  have hrun : (match packedSession with
      | .error _ => false
      | .ok (_, session) => decide (session.Passes 0 ∧
          (session.afterCalls (checking packedMemory) [.readEntry 0 oneByte]).Passes 1 ∧
          1 < ((session.afterCalls (checking packedMemory) [.readEntry 0 oneByte]).afterCalls
            (checking packedMemory) [.readEntry 1 oneByte]).nextIndex)) = true := by
    decide +kernel
  rcases hsession : packedSession with e | ⟨archive, session⟩
  · rw [hsession] at hrun
    cases hrun
  rw [hsession] at hrun
  obtain ⟨hfirst, hsecond, hgone⟩ := of_decide_eq_true hrun
  have hopen := packedSession_eq_ok hsession
  have haligned := aligned_of_open hopen
  refine ⟨archive, session, rfl, run_reads_right (checking packedMemory) hopen _ ?_⟩
  refine passing_cons _ haligned ?_ (passing_cons _ (afterCalls_aligned _ _ haligned) ?_
    (passing_cons _ (afterCalls_aligned _ _ (afterCalls_aligned _ _ haligned)) ?_ ?_))
  · rintro index callback hcall - -
    cases hcall
    exact hfirst
  · rintro index callback hcall - -
    cases hcall
    exact hsecond
  · rintro index callback hcall hnext -
    cases hcall
    exact absurd hgone (Nat.not_lt.mpr hnext)
  · intro before call after hcalls
    cases before <;> cases hcalls

/-- After a request that lost the streams before its entry, the same request goes well. -/
theorem run_reads_twice : ∃ archive session, sessionOf splitHeader = .ok (archive, session) ∧
    ¬session.ReadsRight unreadable session.files session.decoder.source none
      [.readEntry 2 (.done (.ok ())), .readEntry 2 (.done (.ok ()))] := by
  have hrun : (match sessionOf splitHeader with
      | .error _ => false
      | .ok (_, session) => decide (2 < session.count ∧
          (readEntry unreadable 2 (.done (.ok ()))
            (session.afterCalls unreadable [.readEntry 2 (.done (.ok ()))])).1.isOk = true)) = true := by
    decide +kernel
  rcases hsession : sessionOf splitHeader with e | ⟨archive, session⟩
  · rw [hsession] at hrun
    cases hrun
  rw [hsession] at hrun
  obtain ⟨hlt, hok⟩ := of_decide_eq_true hrun
  refine ⟨archive, session, rfl, fun hright => ?_⟩
  obtain ⟨-, hrefused⟩ := hright.each [.readEntry 2 (.done (.ok ()))] 2 (.done (.ok ())) [] rfl
  obtain ⟨e, herror⟩ := hrefused (.inr ⟨2, _, List.mem_singleton_self _, hlt, le_rfl⟩)
  rw [herror] at hok
  cases hok

end ArchiveReadSession

end

end R7z
