import R7z.StreamedFolders

/-! A writer that has failed: all that follows fails, and no signature gets to the front of its output. -/

namespace R7z

open Effect Effect.Machine Write

/-! The front of the output -/

/-- The front of the sink is the one it had at the start, under some zeros. -/
def Blanked (start sink : Sink) : Prop :=
  ∃ k ≤ 32, sink.content.take 32 = (List.replicate k 0 ++ start.content.drop k).take 32

theorem Blanked.refl (sink : Sink) : Blanked sink sink := ⟨0, by decide, by simp⟩

theorem take_zeros (n : ℕ) (content : List UInt8) :
    (List.replicate n 0 ++ content.drop n).take 32 = (List.replicate n 0 ++ (content.take 32).drop n).take 32 := by
  simp [List.take_append, List.drop_take]

theorem Blanked.zeros {start sink sink' : Sink} (h : Blanked start sink) {n : ℕ} (hn : n ≤ 32)
    (hsink : sink'.content = List.replicate n 0 ++ sink.content.drop n) : Blanked start sink' := by
  obtain ⟨k, hk, hfront⟩ := h
  refine ⟨max n k, max_le hn hk, ?_⟩
  have hcount : n + (k - n) = max n k := by omega
  have hrest : k + (n - k) = max n k := by omega
  rw [hsink, take_zeros, hfront, ← take_zeros, List.drop_append, List.drop_replicate, List.length_replicate,
    List.drop_drop, ← List.append_assoc, List.replicate_append_replicate, hcount, hrest]

/-- A signature that is in front was there from the start. -/
theorem Blanked.signature {start sink : Sink} (h : Blanked start sink) {outside : Outside} {offset : UInt64}
    {header : List UInt8} (hsink : sink.content.take 32 = signatureBytes outside offset header) :
    start.content.take 32 = signatureBytes outside offset header := by
  obtain ⟨k, hk, hfront⟩ := h
  rw [hfront] at hsink
  cases k with
  | zero => simpa using hsink
  | succ k =>
    -- a zero is no first byte of a signature
    have hfirst := congrArg List.head? hsink
    simp [signatureBytes, List.replicate_succ] at hfirst

/-- The output is written to behind the place of the signature, which is filled with zeros. -/
structure Past (w : ArchiveWriter) : Prop where
  position : 32 ≤ w.output.position
  front : w.output.content.take 32 = List.replicate 32 0

theorem Past.blanked {w : ArchiveWriter} (h : Past w) (start : Sink) : Blanked start w.output :=
  ⟨32, le_rfl, by rw [h.front]; simp⟩

theorem Past.write {w : ArchiveWriter} (h : Past w) (bytes : List UInt8) :
    Past { w with output := w.output.write bytes } := by
  obtain ⟨hposition, hfront⟩ := h
  have hlength : 32 ≤ w.output.content.length := by
    have := congrArg List.length hfront
    simp only [List.length_take, List.length_replicate] at this
    omega
  refine ⟨Nat.le_add_right_of_le hposition, ?_⟩
  have hshort : 32 ≤ (w.output.content.take w.output.position).length := by
    rw [List.length_take]
    omega
  change ((w.output.content.take w.output.position ++ _) ++ _ ++ _).take 32 = _
  rw [List.append_assoc, List.append_assoc, List.take_append_of_le_length hshort, List.take_take,
    min_eq_left hposition, hfront]

def StaysPast (w w' : ArchiveWriter) : Prop := Past w → Past w'

instance : Stateless StaysPast where
  refl _ h := h
  trans _ _ _ h h' := h' ∘ h
  clock _ _ h := ⟨h.position, h.front⟩
  write _ bytes h := h.write bytes
  state _ _ h := ⟨h.position, h.front⟩

/-- In a folder, and behind one, the writer is past the place of the signature; before the first folder it
may be anywhere. -/
structure Unsigned (start : Sink) (w : ArchiveWriter) : Prop where
  blanked : Blanked start w.output
  past : w.state ≠ .Ready [] → w.state ≠ .Failed → Past w

section
variable {outside : Outside} {start : Sink}

theorem Past.unsigned {w : ArchiveWriter} (h : Past w) : Unsigned start w := ⟨h.blanked start, fun _ _ => h⟩

theorem Unsigned.of_failed {w : ArchiveWriter} (h : Blanked start w.output) (hw : Failed w) :
    Unsigned start w := ⟨h, fun _ hstate => absurd hw hstate⟩

theorem external_still {τ : Type} {part : ArchiveWriter → τ} (hpart : ∀ w clock, part { w with clock } = part w) :
    Keeps part (external outside) := by
  refine Keeps.bind (fun w => hpart w _) fun fault => ?_
  cases fault with
  | none => exact Keeps.pure _
  | some fault => exact Keeps.fail _

theorem read_still {τ : Type} {part : ArchiveWriter → τ} (hpart : ∀ w clock, part { w with clock } = part w)
    (reader : Reader) : Keeps part (ArchiveWriter.read outside reader) := by
  refine (external_still hpart).bind fun _ => ?_
  split
  · exact Keeps.fail _
  · exact (external_still hpart).bind fun _ => Keeps.pure _
  · exact (external_still hpart).bind fun _ => Keeps.pure _

def Place (w : ArchiveWriter) : WriterState × Sink := (w.state, w.output)

theorem Unsigned.of_place {w w' : ArchiveWriter} (h : Unsigned start w) (hplace : Place w' = Place w) :
    Unsigned start w' := by
  obtain ⟨hstate, houtput⟩ := Prod.mk.inj hplace
  refine ⟨houtput ▸ h.blanked, fun hready hfailed => ?_⟩
  obtain ⟨hposition, hfront⟩ := h.past (hstate ▸ hready) (hstate ▸ hfailed)
  exact ⟨houtput ▸ hposition, houtput ▸ hfront⟩

theorem keeps_unsigned {α : Type} {m : WriterM α} (h : Keeps Place m) :
    Meets (Unsigned start) m (fun _ => Unsigned start) fun _ => Unsigned start := by
  intro w hw
  have hkept := h w
  rcases hm : m w with ⟨e | a, w'⟩
  · rw [hm] at hkept
    exact hw.of_place hkept
  · rw [hm] at hkept
    exact hw.of_place hkept

theorem moves_past {α : Type} {m : WriterM α} (h : Moves StaysPast m) :
    Meets Past m (fun _ => Past) fun _ => Past := h.meets fun _ _ hstays => hstays

theorem write_zeros {sink : Sink} (hposition : sink.position = 0) (n : ℕ) :
    (sink.write (List.replicate n 0)).content = List.replicate n 0 ++ sink.content.drop n ∧
      (sink.write (List.replicate n 0)).position = n := by
  simp [Sink.write, hposition]

theorem writeZeros_past :
    Meets (fun w => Blanked start w.output ∧ w.output.position = 0)
      (writeAll outside (List.replicate 32 0)) (fun _ => Past) fun _ w => Blanked start w.output := by
  have hfault : Meets (fun w => Blanked start w.output ∧ w.output.position = 0) (nextFault outside)
      (fun _ w => Blanked start w.output ∧ w.output.position = 0) fun _ w => Blanked start w.output :=
    fun w hw => hw
  refine hfault.bind fun fault => ?_
  cases fault with
  | none =>
    refine Meets.modify fun w ⟨_, hposition⟩ => ?_
    obtain ⟨hzeros, hend⟩ := write_zeros hposition 32
    exact ⟨hend.ge, by rw [hzeros]; simp⟩
  | some fault =>
    refine Meets.bind (Q := fun _ w => Blanked start w.output) (Meets.modify fun w ⟨hblanked, hposition⟩ => ?_)
      fun _ => Meets.fail fun _ hw => hw
    rw [List.take_replicate]
    exact hblanked.zeros (min_le_right _ _) (write_zeros hposition _).1

theorem reserveSignature_past (completed : List CompletedFolder) :
    Meets (fun w => Blanked start w.output ∧ (completed ≠ [] → Past w))
      (ArchiveWriter.reserveSignature outside completed) (fun _ => Past)
      fun _ w => Blanked start w.output := by
  unfold ArchiveWriter.reserveSignature
  cases completed with
  | cons folder completed => exact Meets.pure fun w hw => hw.2 (List.cons_ne_nil _ _)
  | nil =>
    have hexternal : Meets (fun w => Blanked start w.output) (external outside)
        (fun _ w => Blanked start w.output) fun _ w => Blanked start w.output :=
      (external_still fun _ _ => rfl : Keeps ArchiveWriter.output (external outside)).meets (Blanked start)
    have hseek : Meets (fun w => Blanked start w.output) (seek outside 0)
        (fun _ w => Blanked start w.output ∧ w.output.position = 0) fun _ w => Blanked start w.output :=
      hexternal.bind fun _ => Meets.modify fun w hw => ⟨hw, rfl⟩
    exact (hseek.bind fun _ => writeZeros_past).pre fun w hw => hw.1

theorem ensureStreamingFolder_past (plan : FolderPlan) :
    Meets (Unsigned start) (ArchiveWriter.ensureStreamingFolder outside plan) (fun _ => Past)
      fun _ w => Blanked start w.output := by
  refine Meets.get_bind fun w hw => ?_
  cases hstate : w.state with
  | Ready completed =>
    have hset : Meets (fun v => v = w) (setState .Failed)
        (fun _ v => Blanked start v.output ∧ (completed ≠ [] → Past v)) fun _ v => Blanked start v.output := by
      refine Meets.modify fun v hv => ?_
      subst hv
      refine ⟨hw.blanked, fun hsome => ?_⟩
      have hpast := hw.past (by simpa [hstate] using hsome) (by simp [hstate])
      exact ⟨hpast.position, hpast.front⟩
    have hpast {α : Type} {m : WriterM α} (h : Moves StaysPast m) :
        Meets Past m (fun _ => Past) fun _ v => Blanked start v.output :=
      (moves_past h).mono (fun _ hv => hv) (fun _ _ hv => hv) fun _ _ hv => hv.blanked start
    exact (hset.bind fun _ => (reserveSignature_past completed).bind fun _ =>
      (hpast (folder_encoded_moves _ _)).bind fun _ => hpast (setState_moves _)) w rfl
  | Active => exact hw.past (by simp [hstate]) (by simp [hstate])
  | Failed => exact hw.blanked

/-! Calls -/

theorem pushEntry_past (entry : WriteEntry) : Moves StaysPast (pushEntry entry) :=
  Moves.modify fun _ hw => ⟨hw.position, hw.front⟩

theorem pushStreaming_past (name : String) (metadata : EntryMeta) (size : UInt64) (checksum : UInt32) :
    Moves StaysPast (ArchiveWriter.pushStreaming name metadata size checksum) :=
  Moves.get.bind fun _ => nextFolderId_moves.bind fun _ => (pushEntry_past _).bind fun _ =>
    recordStream_moves _ _ _

theorem appendStreaming_unsigned (name : String) (reader : Reader) (metadata : EntryMeta) (plan : FolderPlan) :
    Meets (Unsigned start) (ArchiveWriter.appendStreaming outside name reader metadata plan)
      (fun _ => Unsigned start) fun _ w => Blanked start w.output := by
  have hkeeps {α : Type} {m : WriterM α} (h : Keeps Place m) :
      Meets (Unsigned start) m (fun _ => Unsigned start) fun _ w => Blanked start w.output :=
    (keeps_unsigned h).mono (fun _ hw => hw) (fun _ _ hw => hw) fun _ _ hw => hw.blanked
  have hpast {α : Type} {m : WriterM α} (h : Moves StaysPast m) :
      Meets Past m (fun _ => Past) fun _ w => Blanked start w.output :=
    (moves_past h).mono (fun _ hw => hw) (fun _ _ hw => hw) fun _ _ hw => hw.blanked start
  have hlast {m : WriterM Unit} (h : Moves StaysPast m) :
      Meets Past m (fun _ => Unsigned start) fun _ w => Blanked start w.output :=
    (hpast h).post fun _ _ hw => hw.unsigned
  refine (hkeeps (read_still (fun _ _ => rfl) reader)).bind fun first => ?_
  split
  · cases plan with
    | Preplanned folderSize =>
      exact (ensureStreamingFolder_past _).bind fun _ => hlast (pushStreaming_past _ _ _ _)
    | Automatic =>
      exact (hkeeps nextFolderId_keeps).bind fun _ => hkeeps (Keeps.modify fun _ => rfl)
  · refine (ensureStreamingFolder_past plan).bind fun _ => (hpast (writeChunks_moves _ _ _ _)).bind
      fun ⟨data, size⟩ => (hpast (pushStreaming_past _ _ _ _)).bind fun _ => ?_
    cases plan with
    | Automatic => exact hlast (finishEntryFolderAccounting_moves size)
    | Preplanned folderSize => exact Meets.pure fun _ hw => hw.unsigned

theorem appendFile_unsigned (name : String) (reader : Reader) (metadata : EntryMeta) :
    Meets (Unsigned start) (ArchiveWriter.appendFile outside name reader metadata)
      (fun _ => Unsigned start) fun _ w => Failed w ∧ Unsigned start w := by
  refine Meets.onError (Meets.mono (P := Unsigned start) (Q := fun _ => Unsigned start)
    (E := fun _ w => Blanked start w.output) ?_ (fun _ hw => hw) (fun _ _ hw => hw)
    fun _ _ hblanked => ⟨rfl, .of_failed hblanked rfl⟩)
  refine Meets.get_bind fun w hw => ?_
  have hstream := @appendStreaming_unsigned outside start name reader metadata .Automatic w hw
  cases w.state with
  | Failed => exact hw.blanked
  | Ready => exact hstream
  | Active => exact hstream

theorem appendEmptyEntry_unsigned (entry : ArchiveEntry) :
    Meets (Unsigned start) (ArchiveWriter.appendEmptyEntry outside entry) (fun _ => Unsigned start)
      fun _ => Unsigned start :=
  keeps_unsigned ((external_still fun _ _ => rfl).bind fun _ => nextFolderId_keeps.bind fun _ =>
    Keeps.modify fun _ => rfl)

theorem external_place (place : WriterState × Sink) :
    Meets (fun w => Place w = place) (external outside) (fun _ w => Place w = place) fun _ w => Place w = place :=
  (external_still fun _ _ => rfl : Keeps Place (external outside)).meets (· = place)

theorem setFailed_place (w : ArchiveWriter) {E : R7zError → ArchiveWriter → Prop} :
    Meets (fun v => v = w) (setState .Failed) (fun _ v => Place v = (.Failed, w.output)) E := by
  refine Meets.modify fun v hv => ?_
  rw [hv]
  rfl

theorem sealStreamingFolder_closed {w : ArchiveWriter}
    (hclosed : ∀ folder completed progress, w.state ≠ .Active folder completed progress) :
    Outcome (fun _ w' => Place w' = Place w) (fun _ w' => Place w' = (.Failed, w.output))
      (ArchiveWriter.sealStreamingFolder outside w) := by
  have hfail : Meets (fun v => Place v = (.Failed, w.output)) (fail writerFailed : WriterM (List CompletedFolder))
      (fun _ _ => False) fun _ v => Place v = (.Failed, w.output) := Meets.fail fun _ hv => hv
  change Outcome _ _ ((setState .Failed >>= fun _ => external outside >>= fun _ =>
    ArchiveWriter.completedFolders outside w.prepared w.state >>= fun completed =>
      external outside >>= fun _ => setState (.Ready completed)) w)
  cases hstate : w.state with
  | Active folder completed progress => exact (hclosed folder completed progress hstate).elim
  | Failed =>
    exact ((setFailed_place w).bind fun _ => (external_place _).bind fun _ => hfail.bind fun _ _ h => h.elim) w rfl
  | Ready completed =>
    have hready : Meets (fun v => Place v = (.Failed, w.output)) (setState (.Ready completed))
        (fun _ v => Place v = Place w) fun _ v => Place v = (.Failed, w.output) := by
      refine Meets.modify fun v hv => ?_
      unfold Place
      rw [hstate]
      exact congrArg _ (Prod.mk.inj hv).2
    exact ((setFailed_place w).bind fun _ => (external_place _).bind fun _ => (external_place _).bind
      fun _ => hready) w rfl

theorem newFolder_unsigned : Meets (Unsigned start) (ArchiveWriter.newFolder outside)
    (fun _ => Unsigned start) fun _ w => Failed w ∧ Unsigned start w := by
  intro w hw
  have hclosed (h : ∀ folder completed progress, w.state ≠ .Active folder completed progress) :
      Outcome (fun _ => Unsigned start) (fun _ w => Failed w ∧ Unsigned start w)
        (ArchiveWriter.sealStreamingFolder outside w) := by
    refine (sealStreamingFolder_closed h).mono (fun _ _ hplace => hw.of_place hplace) fun _ w' hplace => ?_
    obtain ⟨hfailed, houtput⟩ := Prod.mk.inj hplace
    exact ⟨hfailed, .of_failed (houtput ▸ hw.blanked) hfailed⟩
  cases hstate : w.state with
  | Ready completed => exact hclosed (by simp [hstate])
  | Failed => exact hclosed (by simp [hstate])
  | Active folder completed progress =>
    have hpast : Past w := hw.past (by simp [hstate]) (by simp [hstate])
    have hboth := (moves_past sealStreamingFolder_moves).and (@sealStreamingFolder_failed outside)
    exact (hboth w ⟨hpast, trivial⟩).mono (fun _ _ h => h.1.unsigned) fun _ _ h => ⟨h.2, h.1.unsigned⟩

/-- The calls that cannot fail without failing the writer. -/
def Write.WriterCall.failsWriter : WriterCall → Bool
  | .appendFile .. | .append .. | .appendEntry .. | .appendSymlink .. | .newFolder => true
  | .appendArchiveEntry entry _ => entry.kind = .File
  | .appendEmptyEntry .. | .appendEmptyFile .. | .appendDirectory .. | .appendAntiItem .. => false

/-- Every call keeps the front of the output without a signature, and those that are to fail the writer do. -/
theorem writerCall_unsigned (call : WriterCall) : Meets (Unsigned start) (call.run outside)
    (fun _ => Unsigned start) fun _ w => (call.failsWriter = true → Failed w) ∧ Unsigned start w := by
  have hfails {m : WriterM Unit} (h : Meets (Unsigned start) m (fun _ => Unsigned start)
      fun _ w => Failed w ∧ Unsigned start w) :
      Meets (Unsigned start) m (fun _ => Unsigned start)
        fun _ w => (call.failsWriter = true → Failed w) ∧ Unsigned start w :=
    h.mono (fun _ hw => hw) (fun _ _ hw => hw) fun _ _ hw => ⟨fun _ => hw.1, hw.2⟩
  have hempty (entry : ArchiveEntry) (hcall : call.failsWriter = false) :
      Meets (Unsigned start) (ArchiveWriter.appendEmptyEntry outside entry) (fun _ => Unsigned start)
        fun _ w => (call.failsWriter = true → Failed w) ∧ Unsigned start w :=
    (appendEmptyEntry_unsigned entry).mono (fun _ hw => hw) (fun _ _ hw => hw)
      fun _ _ hw => ⟨fun h => absurd (hcall.symm.trans h) (by decide), hw⟩
  cases call with
  | appendFile | append | appendEntry => exact hfails (appendFile_unsigned _ _ _)
  | appendSymlink name target metadata =>
    exact hfails (Meets.get_bind fun w hw => appendFile_unsigned _ _ _ w hw)
  | newFolder => exact hfails newFolder_unsigned
  | appendEmptyEntry | appendEmptyFile | appendDirectory | appendAntiItem => exact hempty _ rfl
  | appendArchiveEntry entry reader =>
    change Meets _ (ArchiveWriter.appendArchiveEntry outside entry reader) _ _
    by_cases hkind : entry.kind = .File
    · unfold ArchiveWriter.appendArchiveEntry
      rw [if_neg (not_not.mpr hkind)]
      exact hfails (appendFile_unsigned _ _ _)
    · unfold ArchiveWriter.appendArchiveEntry
      rw [if_pos hkind]
      exact Meets.fail fun w hw => ⟨fun h => absurd (of_decide_eq_true h) hkind, hw⟩

theorem prepareCall_unsigned (call : PrepareCall) : Meets (Unsigned start) (call.run outside)
    (fun _ => Unsigned start) fun _ => Unsigned start := by
  cases call with
  | appendEmptyEntry entry => exact appendEmptyEntry_unsigned entry
  | setCompression prepared =>
    exact keeps_unsigned ((Keeps.ofExcept _).bind fun _ => Keeps.modify fun _ => rfl)

/-! Runs -/

theorem Meets.after {σ ε α : Type} {P C : σ → Prop} {m : Machine σ ε α}
    (h : Meets P m (fun _ => P) fun _ s => C s ∧ P s) {s : σ} (hs : P s) : P (m s).2 := by
  have hout := h s hs
  rcases hm : m s with ⟨e | a, s'⟩
  · rw [hm] at hout
    exact hout.2
  · rw [hm] at hout
    exact hout

theorem writerCalls_unsigned (calls : List WriterCall) {w : ArchiveWriter} (hw : Unsigned start w) :
    Unsigned start (runAll (WriterCall.run outside) calls w).2 :=
  runAll_preserves (fun call _ hw => Meets.after (writerCall_unsigned call) hw) calls hw

theorem writerAfter_unsigned (prepare : List PrepareCall) (calls : List WriterCall) (output : Sink)
    (prepared : PreparedArchiveOptions) :
    Unsigned output (writerAfter outside prepare calls (ArchiveWriter.new output prepared)) := by
  have hnew : Unsigned output (ArchiveWriter.new output prepared) :=
    ⟨Blanked.refl output, fun hready => absurd rfl hready⟩
  have hprepare (call : PrepareCall) : Meets (Unsigned output) (call.run outside)
      (fun _ => Unsigned output) fun _ w => True ∧ Unsigned output w :=
    (prepareCall_unsigned call).mono (fun _ h => h) (fun _ _ h => h) fun _ _ h => ⟨trivial, h⟩
  exact writerCalls_unsigned calls (runAll_preserves (fun call _ hw => Meets.after (hprepare call) hw) prepare hnew)

theorem writerAfter_append (prepare : List PrepareCall) (before after : List WriterCall) (w : ArchiveWriter) :
    writerAfter outside prepare (before ++ after) w =
      (runAll (WriterCall.run outside) after (writerAfter outside prepare before w)).2 := by
  unfold writerAfter
  rw [runAll_append]

theorem runAll_refused (calls : List WriterCall) {w : ArchiveWriter} (hw : Failed w) :
    ∀ result ∈ (runAll (WriterCall.run outside) calls w).1, ∃ e, result = .error e := by
  induction calls generalizing w with
  | nil => simp [runAll]
  | cons call calls ih =>
    have hrefused := @writerCall_refuses outside call w hw
    simp only [runAll, List.mem_cons, forall_eq_or_imp]
    refine ⟨?_, ih (writerCall_failed call hw)⟩
    rcases hrun : call.run outside w with ⟨e | _, w'⟩
    · exact ⟨e, rfl⟩
    · rw [hrun] at hrefused
      exact hrefused.elim

theorem finish_refused {w : ArchiveWriter} (hw : Failed w) :
    ∃ e w', ArchiveWriter.finish outside w = (.error e, w') ∧ w'.output = w.output := by
  have hfinish : Meets (fun v => Place v = (.Failed, w.output)) (ArchiveWriter.finish outside)
      (fun _ _ => False) fun _ v => Place v = (.Failed, w.output) := by
    refine (external_place _).bind fun _ => Meets.get_bind fun v hv => ?_
    rw [(Prod.mk.inj hv).1]
    exact hv
  have hout := hfinish w (Prod.ext hw rfl)
  rcases hrun : ArchiveWriter.finish outside w with ⟨e | _, w'⟩
  · rw [hrun] at hout
    exact ⟨e, w', rfl, (Prod.mk.inj hout).2⟩
  · rw [hrun] at hout
    exact hout.elim

/-- Once a call that appends a file or seals a folder has failed, everything fails, and no signature gets to
the front of the output. An entry that cannot have data is refused by a writer that then goes on as if it
had not been given. -/
theorem failed_writer_stays_failed (outside : Outside) (output : Sink) (prepared : PreparedArchiveOptions)
    (prepare : List PrepareCall) (before : List WriterCall) :
    let new := ArchiveWriter.new output prepared
    let w := writerAfter outside prepare before new
    (∀ (call : WriterCall) (e : R7zError) (after : List WriterCall), call.failsWriter = true →
      (call.run outside w).1 = .error e →
      let later := runAll (WriterCall.run outside) after (call.run outside w).2
      (∀ result ∈ later.1, ∃ e', result = .error e') ∧
        ∃ e' w', ArchiveWriter.finish outside later.2 = (.error e', w') ∧ Blanked output w'.output ∧
          ∀ offset header, output.content.take 32 ≠ signatureBytes outside offset header →
            w'.output.content.take 32 ≠ signatureBytes outside offset header) ∧
    ∀ (entry : ArchiveEntry) (reader : Reader) (after : List WriterCall), entry.kind ≠ .File →
      (WriterCall.appendArchiveEntry entry reader).run outside w =
        (.error (.invalidOptions "only file entries can have stream data"), w) ∧
      ArchiveWriter.finish outside
          (writerAfter outside prepare (before ++ .appendArchiveEntry entry reader :: after) new) =
        ArchiveWriter.finish outside (writerAfter outside prepare (before ++ after) new) := by
  intro new w
  refine ⟨?_, ?_⟩
  · intro call e after hcall herror later
    have hw : Unsigned output w := writerAfter_unsigned prepare before output prepared
    have hout := @writerCall_unsigned outside output call w hw
    have hfailed : Failed (call.run outside w).2 ∧ Unsigned output (call.run outside w).2 := by
      rcases hrun : call.run outside w with ⟨e' | _, w'⟩
      · rw [hrun] at hout
        exact ⟨hout.1 hcall, hout.2⟩
      · rw [hrun] at herror
        cases herror
    have hlater : Failed later.2 := runAll_preserves (fun call _ hw => writerCall_failed call hw) after hfailed.1
    have hblanked : Blanked output later.2.output := (writerCalls_unsigned after hfailed.2).blanked
    obtain ⟨e', w', hfinish, houtput⟩ := @finish_refused outside later.2 hlater
    rw [← houtput] at hblanked
    exact ⟨runAll_refused after hfailed.1, e', w', hfinish, hblanked,
      fun offset header hstart hsigned => hstart (hblanked.signature hsigned)⟩
  · intro entry reader after hkind
    have hrefused : (WriterCall.appendArchiveEntry entry reader).run outside w =
        (.error (.invalidOptions "only file entries can have stream data"), w) := by
      change ArchiveWriter.appendArchiveEntry outside entry reader w = _
      unfold ArchiveWriter.appendArchiveEntry
      rw [if_pos hkind]
      rfl
    refine ⟨hrefused, congrArg _ ?_⟩
    rw [writerAfter_append, writerAfter_append]
    change (runAll (WriterCall.run outside) after
      ((WriterCall.appendArchiveEntry entry reader).run outside w).2).2 = _
    rw [hrefused]

end

def fullOutside : Outside :=
  { plainOutside with fault := fun clock => if clock = 7 then some { error := .io, written := 2 } else none }

/-- A file that does not fit the output, and a directory after it. -/
theorem failed_writer_stays_failed_full :
    ∃ e' w', ArchiveWriter.finish fullOutside
        (runAll (WriterCall.run fullOutside) [.appendDirectory "d" EntryMeta.default]
          ((WriterCall.append "f" [.ok [1, 2, 3]]).run fullOutside
            (writerAfter fullOutside [] [] (ArchiveWriter.new ⟨[], 0⟩ plainPrepared))).2).2 =
      (.error e', w') ∧ Blanked ⟨[], 0⟩ w'.output := by
  have hfails : ((WriterCall.append "f" [.ok [1, 2, 3]]).run fullOutside
      (writerAfter fullOutside [] [] (ArchiveWriter.new ⟨[], 0⟩ plainPrepared))).1 = .error .io := by
    decide +kernel
  obtain ⟨-, e', w', hfinish, hblanked, -⟩ := (failed_writer_stays_failed fullOutside ⟨[], 0⟩ plainPrepared [] []).1
    (.append "f" [.ok [1, 2, 3]]) .io [.appendDirectory "d" EntryMeta.default] rfl hfails
  exact ⟨e', w', hfinish, hblanked⟩

end R7z
