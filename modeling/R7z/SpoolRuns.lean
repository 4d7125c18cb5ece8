import R7z.SpoolCharges

/-! Runs of an automatic spool, against a cursor over a vector. -/

namespace R7z

open Effect Effect.Machine Write

namespace Write

/-- What a call did, as a call of its own with its answer: a write of what was taken, a read of what was
handed over, nothing where it failed. -/
def SpoolCall.done : SpoolCall → Except SpoolIoError SpoolAnswer → Option (SpoolCall × SpoolAnswer)
  | .write buf, .ok (.wrote n) => if n = 0 then none else some (.write (buf.take n), .wrote n)
  | .read _, .ok (.bytes bytes) => some (.read bytes.length, .bytes bytes)
  | .seek pos, .ok (.position position) => some (.seek pos, .position position)
  | _, _ => none

def doneCalls : List SpoolCall → List (Except SpoolIoError SpoolAnswer) → List (SpoolCall × SpoolAnswer)
  | call :: calls, outcome :: outcomes => (call.done outcome).toList ++ doneCalls calls outcomes
  | _, _ => []

/-- The cursor does the same, with the same answers, and is left as `cursor'`. -/
def Replays (done : List (SpoolCall × SpoolAnswer)) (cursor cursor' : Sink) : Prop :=
  runAll Sink.call (done.map Prod.fst) cursor = (done.map fun d => .ok d.2, cursor')

/-- A limit has refused the call. -/
def isRefused : Except SpoolIoError SpoolAnswer → Bool
  | .error (.limit _) => true
  | _ => false

def accepted : List SpoolCall → List (Except SpoolIoError SpoolAnswer) → List SpoolCall
  | call :: calls, outcome :: outcomes =>
    if isRefused outcome then accepted calls outcomes else call :: accepted calls outcomes
  | _, _ => []

/-- The vector gets no longer than it can, and no seek goes where no file can follow. -/
def FitsFile (calls : List SpoolCall) (cursor : Sink) : Prop :=
  ∀ outcome ∈ (runAll Sink.call calls cursor).1, outcome ≠ .error .noRoom ∧
    ∀ position, outcome = .ok (.position position) → position ≤ MAX_LEN

theorem limit_of_isRefused {outcome : Except SpoolIoError SpoolAnswer} (h : isRefused outcome = true) :
    ∃ message, outcome = .error (.limit message) := by
  unfold isRefused at h
  split at h
  · exact ⟨_, rfl⟩
  · cases h

theorem accepted_eq_self {calls : List SpoolCall} {outcomes : List (Except SpoolIoError SpoolAnswer)}
    (hlength : outcomes.length = calls.length) (h : ∀ outcome ∈ outcomes, isRefused outcome = false) :
    accepted calls outcomes = calls ∧ (outcomes.filter fun outcome => !isRefused outcome) = outcomes := by
  refine ⟨?_, List.filter_eq_self.mpr fun outcome houtcome => by rw [h outcome houtcome]; rfl⟩
  induction calls generalizing outcomes with
  | nil => rfl
  | cons c calls ih =>
    cases outcomes with
    | nil => cases hlength
    | cons outcome outcomes =>
      obtain ⟨hfirst, hrest⟩ := List.forall_mem_cons.mp h
      rw [accepted, hfirst, if_neg Bool.false_ne_true, ih (Nat.succ.inj hlength) hrest]

theorem Replays.nil (cursor : Sink) : Replays [] cursor cursor := rfl

theorem Replays.append {done done' : List (SpoolCall × SpoolAnswer)} {cursor cursor' cursor'' : Sink}
    (h : Replays done cursor cursor') (h' : Replays done' cursor' cursor'') :
    Replays (done ++ done') cursor cursor'' := by
  unfold Replays at h h' ⊢
  rw [List.map_append, List.map_append, runAll_append, h, h']

theorem Replays.one {call : SpoolCall} {answer : SpoolAnswer} {cursor cursor' : Sink}
    (h : Sink.call call cursor = (.ok answer, cursor')) : Replays [(call, answer)] cursor cursor' := by
  unfold Replays
  simp [runAll, h]

theorem answer_apply {σ α : Type} (m : Machine σ SpoolIoError α) (f : α → SpoolAnswer) (s : σ) :
    (m >>= fun a => pure (f a)) s = ((m s).1.map f, (m s).2) := by
  rcases h : m s with ⟨e | a, s'⟩
  · rw [bind_of_error h]
    rfl
  · rw [bind_of_ok h]
    rfl

theorem Replays.answer {α : Type} {call : SpoolCall} {m : Machine Sink SpoolIoError α} {f : α → SpoolAnswer}
    (hcall : Sink.call call = m >>= fun a => pure (f a)) {a : α} {cursor cursor' : Sink}
    (h : m cursor = (.ok a, cursor')) : Replays [(call, f a)] cursor cursor' := by
  apply Replays.one
  rw [hcall, answer_apply, h]
  rfl

theorem forall_write_cons {c : SpoolCall} {calls : List SpoolCall}
    (h : ∀ buf, .write buf ∈ c :: calls → buf ≠ []) :
    (∀ buf, c = .write buf → buf ≠ []) ∧ ∀ buf, .write buf ∈ calls → buf ≠ [] :=
  ⟨fun buf hbuf => h buf (hbuf ▸ List.mem_cons_self), fun buf hbuf => h buf (List.mem_cons_of_mem _ hbuf)⟩

theorem Sink.seekTo_ok {pos : SeekFrom} {cursor cursor' : Sink} {position : ℕ}
    (h : Sink.seekTo pos cursor = (.ok position, cursor')) : cursor'.position = position := by
  unfold Sink.seekTo at h
  dsimp only at h
  split at h
  · cases h
    rfl
  · cases h

theorem Sink.seekTo_error {pos : SeekFrom} {cursor : Sink} {e : SpoolIoError}
    (h : (Sink.seekTo pos cursor).1 = .error e) : Sink.seekTo pos cursor = (.error e, cursor) := by
  unfold Sink.seekTo at h ⊢
  dsimp only at h ⊢
  split at h
  · cases h
  · next htarget =>
    cases h
    exact if_neg htarget

theorem answer_endsIn {σ α : Type} {m : Loops σ SpoolIoError α} {f : α → SpoolAnswer} {s s' : σ}
    {outcome : Except SpoolIoError SpoolAnswer} :
    (m >>= fun a => pure (f a)).EndsIn s (outcome, s') ↔ ∃ x, outcome = x.map f ∧ m.EndsIn s (x, s') := by
  constructor
  · intro h
    rcases Loops.bind_endsIn h with ⟨a, s₁, hm, h⟩ | ⟨e, s₁, hm, h⟩
    · cases Loops.pure_endsIn.mp h
      exact ⟨.ok a, rfl, hm⟩
    · cases h
      exact ⟨.error e, rfl, hm⟩
  · rintro ⟨x, rfl, hm⟩
    cases x with
    | error e => exact Loops.bind_of_error hm
    | ok a => exact Loops.bind_of_ok hm (Loops.pure_endsIn.mpr rfl)

namespace AutoSpool

section
variable {ω φ : Type} {fs : FileSystem ω φ} {view : φ → ω → FileView} {spool spool' last : AutoSpool ω φ}

/-! Whatever goes wrong -/

structure CallSpec (view : φ → ω → FileView) (call : SpoolCall) (spool : AutoSpool ω φ)
    (outcome : Except SpoolIoError SpoolAnswer) (spool' : AutoSpool ω φ) : Prop where
  replays : Replays (call.done outcome).toList (spool.store view) (spool'.store view)
  balanced : spool'.Balanced view
  limits_eq : spool'.limits = spool.limits

theorem CallSpec.failed {call : SpoolCall} {e : SpoolIoError} (hkept : Kept view spool spool') :
    CallSpec view call spool (.error e) spool' := by
  refine ⟨?_, hkept.balanced, hkept.limits_eq⟩
  have hnone : call.done (.error e) = none := by cases call <;> rfl
  rw [hnone, hkept.store_eq]
  exact Replays.nil _

theorem call_spec (hfs : fs.Faithful view) (hs : spool.Balanced view) {c : SpoolCall}
    (hc : ∀ buf, c = .write buf → buf ≠ []) {outcome : Except SpoolIoError SpoolAnswer}
    (h : (call fs c).EndsIn spool (outcome, spool')) : CallSpec view c spool outcome spool' := by
  cases c with
  | write buf =>
    obtain ⟨x, rfl, hwrite⟩ := answer_endsIn.mp h
    have hspec := write_spec hfs hs (hc buf rfl) hwrite
    cases x with
    | error e => exact CallSpec.failed hspec.1
    | ok n =>
      obtain ⟨hn, hwrote⟩ := hspec
      refine ⟨?_, hwrote.balanced, hwrote.limits_eq⟩
      change Replays ((SpoolCall.write buf).done (.ok (.wrote n))).toList _ _
      have hlength : (buf.take n).length = n := List.length_take_of_le hn
      have hstore := hwrote.store_eq
      -- a write that took nothing is no call of the cursor
      by_cases hzero : n = 0
      · rw [hzero, List.take_zero, if_pos rfl] at hstore
        rw [show (SpoolCall.write buf).done (.ok (.wrote n)) = none from if_pos hzero, hstore]
        exact Replays.nil _
      · have hsome : buf.take n ≠ [] := fun hnil => hzero (by rw [← hlength, hnil, List.length_nil])
        rw [if_neg hsome] at hstore
        rw [show (SpoolCall.write buf).done (.ok (.wrote n)) = some (.write (buf.take n), .wrote n) from
          if_neg hzero]
        apply @Replays.answer _ (.write (buf.take n)) (Sink.writeBuf (buf.take n)) SpoolAnswer.wrote rfl
        rw [Sink.writeBuf, if_pos hwrote.fits, hlength, hstore]
  | read n =>
    obtain ⟨x, rfl, hread⟩ := answer_endsIn.mp h
    have hspec := read_spec hfs hs n
    rw [Loops.once_endsIn.mp hread] at hspec
    cases x with
    | error e => exact CallSpec.failed hspec.1
    | ok bytes =>
      obtain ⟨hsame, hbalanced, hlimits⟩ := hspec
      exact ⟨Replays.answer rfl hsame, hbalanced, hlimits⟩
  | seek pos =>
    obtain ⟨x, rfl, hseek⟩ := answer_endsIn.mp h
    have hspec := seek_spec hfs hs pos
    rw [Loops.once_endsIn.mp hseek] at hspec
    cases x with
    | error e => exact CallSpec.failed hspec.1
    | ok position =>
      obtain ⟨hsame, hbalanced, hlimits⟩ := hspec
      exact ⟨Replays.answer rfl hsame, hbalanced, hlimits⟩

theorem run_spec (hfs : fs.Faithful view) {calls : List SpoolCall}
    {outcomes : List (Except SpoolIoError SpoolAnswer)} (hrun : Loops.Runs (call fs) calls spool outcomes last)
    (hs : spool.Balanced view) (hcalls : ∀ buf, .write buf ∈ calls → buf ≠ []) :
    Replays (doneCalls calls outcomes) (spool.store view) (last.store view) ∧ last.Balanced view ∧
      last.limits = spool.limits := by
  induction hrun with
  | nil => exact ⟨Replays.nil _, hs, rfl⟩
  | cons hcall _ ih =>
    obtain ⟨hc, hcalls⟩ := forall_write_cons hcalls
    have hspec := call_spec hfs hs hc hcall
    obtain ⟨hreplays, hbalanced, hlimits⟩ := ih hspec.balanced hcalls
    exact ⟨hspec.replays.append hreplays, hbalanced, hlimits.trans hspec.limits_eq⟩

theorem new_spec (hfs : fs.Faithful view) {memoryThreshold temporaryLimit retainedLimit : Option UInt64}
    {dir : Option String} {outside : ω}
    (hnew : new fs memoryThreshold dir (.new temporaryLimit retainedLimit) outside = .ok spool) :
    spool.Balanced view ∧ spool.store view = ⟨[], 0⟩ ∧ spool.limits = (temporaryLimit, retainedLimit) := by
  unfold new at hnew
  dsimp only at hnew
  have hlength : 0 ≤ MAX_LEN := Nat.zero_le _
  split at hnew
  · split at hnew
    · next file outside' hcreate =>
      cases hnew
      have hfresh := (createTempSpool_fresh hfs dir).ok trivial hcreate
      have hstore : (view file outside').store = ⟨[], 0⟩ := by rw [hfresh, FileView.fresh]
      have hreceived : (view file outside').received = 0 := by rw [hfresh, FileView.fresh]
      refine ⟨⟨?_, ?_, rfl, ?_, nofun, nofun⟩, hstore, rfl⟩
      · show (view file outside').store.position < _
        rw [hstore]
        exact Nat.two_pow_pos 64
      · show (view file outside').store.content.length ≤ _
        rw [hstore]
        exact hlength
      · show _ = min (view file outside').received _
        rw [hreceived]
        rfl
    · cases hnew
  · cases hnew
    exact ⟨⟨Nat.two_pow_pos 64, hlength, rfl, rfl, nofun, nofun⟩, rfl, rfl⟩

/-! Where nothing goes wrong -/

variable {outside : ω} {cursor : Sink} {file : φ} {buf : List UInt8}

theorem orFail_ok {ε ε' α : Type} {f : ε → ε'} {m : Machine ω ε α} {a : α} (h : (m outside).1 = .ok a) :
    orFail f m outside = (.ok a, (m outside).2) := by
  rw [orFail, h]
  rfl

theorem createTempSpool_prompt (hprompt : fs.Prompt view) (dir : Option String) (outside : ω) :
    ∃ file outside', createTempSpool fs dir outside = (.ok file, outside') := by
  have hdir := hprompt.createDirAll (dir.getD fs.tempDir) outside
  rw [createTempSpool, bind_of_ok (orFail_ok hdir)]
  generalize (fs.createDirAll (dir.getD fs.tempDir) outside).2 = outside₁
  obtain ⟨random, hrandom⟩ := hprompt.random outside₁
  rw [createAttempts, bind_of_ok (orFail_ok hrandom)]
  generalize (fs.random outside₁).2 = outside₂
  generalize dir.getD fs.tempDir ++ "/" ++ spoolName fs.processId 0 random = path
  obtain ⟨file, hfile⟩ := hprompt.createNew path outside₂
  have hattempt : (Machine.attempt (fs.createNew path) : Machine ω R7zError _) outside₂ =
      (.ok (.ok file), (fs.createNew path outside₂).2) := by rw [Machine.attempt, hfile]
  exact ⟨file, _, bind_of_ok hattempt⟩

/-- The copy ends, and it only fails where the position is beyond the end of all files. -/
theorem copyToFile_prompt (hprompt : fs.Prompt view)
    (hview : view file outside = .fresh) (hlength : cursor.content.length ≤ MAX_LEN)
    (hlt : cursor.position < 2 ^ 64) :
    ∃ x outside', (copyToFile fs file cursor).EndsIn outside (x, outside') ∧
      (cursor.position ≤ MAX_LEN → x = .ok ()) := by
  have hwhole : ∃ middle, ((fs.write file).writeAll fileErrors cursor.content).EndsIn outside (.ok (), middle) := by
    by_cases hnil : cursor.content = []
    · exact ⟨outside, Writer.writeAll_whole (fun _ => rfl) fun hsome => absurd hnil hsome⟩
    · have hwrite := hprompt.write file cursor.content outside
      rw [hview] at hwrite
      refine ⟨_, Writer.writeAll_whole (fun hempty => absurd hempty hnil) fun _ => Prod.ext (hwrite ?_) rfl⟩
      show 0 + cursor.content.length ≤ MAX_LEN
      rw [Nat.zero_add]
      exact hlength
  obtain ⟨middle, hwhole⟩ := hwhole
  have hseek := hprompt.seek file (.Start (UInt64.ofNat cursor.position)) middle
  rw [SeekFrom.target, UInt64.toNat_ofNat_of_lt' hlt] at hseek
  rcases hrun : fs.seek file (.Start (UInt64.ofNat cursor.position)) middle with ⟨e | position, outside'⟩
  · refine ⟨.error e, outside', Loops.bind_of_ok hwhole (Loops.bind_of_error (Loops.once_endsIn.mpr hrun)), ?_⟩
    -- no seek fails at a position that a file can have
    intro hle
    rw [hrun, if_pos ⟨by omega, by omega⟩] at hseek
    cases hseek
  · exact ⟨.ok (), outside', Loops.bind_of_ok hwhole (Loops.bind_of_ok (Loops.once_endsIn.mpr hrun)
      (Loops.pure_endsIn.mpr rfl)), fun _ => rfl⟩

theorem migrate_prompt (hfs : fs.Faithful view) (hprompt : fs.Prompt view) (hs : spool.Balanced view)
    (hinner : spool.inner = .Memory cursor) (dir : Option String)
    (hroom : spool.HasRoom (saturatingAdd (UInt64.ofNat cursor.content.length) (lenU64 buf.length))) :
    ∃ x spool', (migrate fs cursor dir).EndsIn spool (x, spool') ∧
      (cursor.position ≤ MAX_LEN → x = .ok ()) := by
  obtain ⟨file, outside₁, hcreate⟩ := createTempSpool_prompt hprompt dir spool.outside
  have hfresh := (createTempSpool_fresh hfs dir).ok trivial hcreate
  obtain ⟨hposition, hlength, _, _⟩ := hs.in_memory hinner
  have hcreated : onOutside .create (createTempSpool fs dir) spool =
      (.ok file, { spool with outside := outside₁ }) := by
    rw [onOutside, hcreate]
    rfl
  obtain ⟨x, outside₂, hcopy, hok⟩ := copyToFile_prompt hprompt hfresh hlength hposition
  have hcopied : (Loops.attempt (Loops.focus AutoSpool.outside (fun outside spool => { spool with outside })
      (copyToFile fs file cursor)) : Loops (AutoSpool ω φ) SpoolIoError _).EndsIn
        { spool with outside := outside₁ } (.ok x, { spool with outside := outside₂ }) :=
    Loops.attempt_endsIn.mpr ⟨x, rfl, Loops.focus_endsIn.mpr ⟨outside₂, rfl, hcopy⟩⟩
  cases x with
  | error e =>
    refine ⟨_, _, Loops.bind_of_ok (Loops.once_endsIn.mpr hcreated) (Loops.bind_of_ok hcopied
      (Loops.once_endsIn.mpr rfl)), fun hle => absurd (hok hle) nofun⟩
  | ok =>
    have hkept := Kept.outside hs hinner outside₂
    have hview := copyToFile_ok hfs hfresh hposition hcopy
    obtain ⟨spool₃, hswitch, _⟩ := @switchTo_rolls _ _ view { spool with outside := outside₂ } buf
      cursor file hkept.balanced hinner hview hroom
    exact ⟨.ok (), spool₃, Loops.bind_of_ok (Loops.once_endsIn.mpr hcreated) (Loops.bind_of_ok hcopied
      (Loops.once_endsIn.mpr hswitch)), fun _ => rfl⟩

theorem maybeRollToFile_prompt (hfs : fs.Faithful view) (hprompt : fs.Prompt view)
    (hs : spool.Balanced view) :
    ∃ x spool', (maybeRollToFile fs (lenU64 buf.length)).EndsIn spool (x, spool') ∧
      ((spool.store view).position ≤ MAX_LEN → x = .ok () ∨ ∃ message, x = .error (.limit message)) := by
  have hget {m : AutoSpool ω φ → Loops (AutoSpool ω φ) SpoolIoError Unit}
      {o : Except SpoolIoError Unit × AutoSpool ω φ} (h : (m spool).EndsIn spool o) :
      (Loops.once Machine.get >>= m).EndsIn spool o :=
    (Loops.once_bind (rfl : Machine.get spool = (.ok spool, spool))).mpr h
  cases hinner : spool.inner with
  | TempFile file =>
    refine ⟨.ok (), spool, hget ?_, fun _ => .inl rfl⟩
    rw [hinner]
    exact Loops.pure_endsIn.mpr rfl
  | Memory cursor =>
    by_cases hrolls : rolls spool cursor (lenU64 buf.length) = true
    · by_cases hroom : spool.HasRoom (saturatingAdd (UInt64.ofNat cursor.content.length) (lenU64 buf.length))
      · obtain ⟨x, spool', hmigrate, hok⟩ := migrate_prompt hfs hprompt hs hinner spool.dir hroom
        refine ⟨x, spool', hget ?_, fun hle => .inl (hok (store_memory hinner ▸ hle))⟩
        rw [hinner]
        dsimp only
        rw [if_pos hrolls, Loops.once_bind (checkTemporaryStorageWrite_ok hroom)]
        exact hmigrate
      · refine ⟨.error (.limit "temporary storage limit exceeded"),
          { spool with temporaryStorageLimitExceeded := true }, hget ?_, fun _ => .inr ⟨_, rfl⟩⟩
        rw [hinner]
        dsimp only
        rw [if_pos hrolls, Loops.once_bind_error (checkTemporaryStorageWrite_error hroom), hinner]
    · refine ⟨.ok (), spool, hget ?_, fun _ => .inl rfl⟩
      rw [hinner]
      dsimp only
      rw [if_neg hrolls]
      exact Loops.pure_endsIn.mpr rfl

theorem writeThrough_prompt (hfs : fs.Faithful view) (hprompt : fs.Prompt view) (hs : spool.Balanced view)
    (hinner : spool.inner = .TempFile file) (hready : Ready view buf spool)
    (hfits : (spool.store view).position + buf.length ≤ MAX_LEN) :
    (writeThrough fs buf spool).1 = .ok buf.length := by
  have hspec := writeThrough_file hfs hs hinner hready
  rw [store_file hinner] at hfits
  rw [hprompt.write file buf spool.outside hfits] at hspec
  rcases hrun : writeThrough fs buf spool with ⟨e | n, spool'⟩
  · rw [hrun] at hspec
    obtain ⟨⟨_, herror, _⟩, _⟩ := hspec
    cases herror
  · rw [hrun] at hspec
    cases hspec.1
    rfl

theorem write_prompt (hfs : fs.Faithful view) (hprompt : fs.Prompt view) (hs : spool.Balanced view)
    (hbuf : buf ≠ []) : ∃ x spool', (write fs buf).EndsIn spool (x, spool') ∧
      ((spool.store view).position + buf.length ≤ MAX_LEN →
        x = .ok buf.length ∨ ∃ message, x = .error (.limit message)) := by
  have hcheck := checkTemporaryFileWrite_spec hs hbuf
  rcases hrun : checkTemporaryFileWrite buf.length spool with ⟨e | _, spool₁⟩
  · rw [hrun] at hcheck
    obtain ⟨⟨message, rfl⟩, _⟩ := hcheck
    exact ⟨_, spool₁, Loops.bind_of_error (Loops.once_endsIn.mpr hrun), fun _ => .inr ⟨message, rfl⟩⟩
  · rw [hrun] at hcheck
    obtain ⟨rfl, hready⟩ := hcheck
    obtain ⟨x, spool₂, hroll, hok⟩ := @maybeRollToFile_prompt _ _ fs view spool₁ buf hfs hprompt hs
    have hspec := maybeRollToFile_spec hfs hs hroll
    cases x with
    | error e =>
      refine ⟨.error e, spool₂, Loops.bind_of_ok (Loops.once_endsIn.mpr hrun)
        (Loops.bind_of_error hroll), fun hfits => ?_⟩
      rcases hok (Nat.le_of_add_right_le hfits) with hok | ⟨message, herror⟩
      · cases hok
      · cases herror
        exact .inr ⟨message, rfl⟩
    | ok =>
      refine ⟨(writeThrough fs buf spool₂).1, (writeThrough fs buf spool₂).2,
        Loops.bind_of_ok (Loops.once_endsIn.mpr hrun) (Loops.bind_of_ok hroll
          (Loops.once_endsIn.mpr rfl)), fun hfits => ?_⟩
      rcases hspec with rfl | hrolled
      · cases hinner : spool₂.inner with
        | Memory cursor => exact (writeThrough_memory hs hinner hbuf).2 (store_memory hinner ▸ hfits)
        | TempFile file => exact .inl (writeThrough_prompt hfs hprompt hs hinner hready hfits)
      · obtain ⟨file, hinner⟩ := hrolled.in_file
        rw [← hrolled.kept.store_eq] at hfits
        exact .inl (writeThrough_prompt hfs hprompt hrolled.kept.balanced hinner hrolled.ready hfits)

theorem read_prompt (hprompt : fs.Prompt view) (spool : AutoSpool ω φ) (n : ℕ) :
    (read fs n spool).1 = .ok (((spool.store view).content.drop (spool.store view).position).take n) := by
  cases hinner : spool.inner with
  | Memory cursor =>
    rw [read, onInner_memory hinner, store_memory hinner]
    rfl
  | TempFile file =>
    rw [read, onInner_file hinner, hprompt.read, store_file hinner]
    rfl

theorem seek_prompt (hprompt : fs.Prompt view) (spool : AutoSpool ω φ) (pos : SeekFrom)
    (hfits : ∀ position, (Sink.seekTo pos (spool.store view)).1 = .ok position → position ≤ MAX_LEN) :
    (seek fs pos spool).1 = (Sink.seekTo pos (spool.store view)).1 := by
  cases hinner : spool.inner with
  | Memory cursor => rw [seek, onInner_memory hinner, store_memory hinner]
  | TempFile file =>
    rw [store_file hinner] at hfits ⊢
    rw [seek, onInner_file hinner, hprompt.seek]
    unfold Sink.seekTo at hfits ⊢
    dsimp only at hfits ⊢
    by_cases htarget : 0 ≤ pos.target (view file spool.outside).store ∧
        pos.target (view file spool.outside).store < 2 ^ 64
    · rw [if_pos htarget] at hfits ⊢
      have hle := hfits _ rfl
      rw [if_pos ⟨htarget.1, by omega⟩]
      rfl
    · rw [if_neg htarget, if_neg fun h => htarget ⟨h.1, h.2.trans_lt (by decide)⟩]
      rfl

/-! Call by call, each with the position after it -/

theorem write_in_full (hfs : fs.Faithful view) (hprompt : fs.Prompt view) (hs : spool.Balanced view)
    (hbuf : buf ≠ []) (hfits : (spool.store view).position + buf.length ≤ MAX_LEN) {x : Except SpoolIoError ℕ}
    (hwrite : (write fs buf).EndsIn spool (x, spool')) (hnot : ∀ message, x ≠ .error (.limit message)) :
    Sink.writeBuf buf (spool.store view) = (x, spool'.store view) ∧
      (spool'.store view).position ≤ MAX_LEN := by
  obtain ⟨y, spool₁, hend, hok⟩ := write_prompt hfs hprompt hs hbuf
  cases hwrite.unique hend
  rcases hok hfits with rfl | ⟨message, rfl⟩
  · obtain ⟨_, hwrote⟩ := write_spec hfs hs hbuf hwrite
    have hstore := hwrote.store_eq
    rw [List.take_length, if_neg hbuf] at hstore
    rw [Sink.writeBuf, if_pos hfits, hstore]
    exact ⟨rfl, hfits⟩
  · exact absurd rfl (hnot message)

theorem read_in_full (hfs : fs.Faithful view) (hprompt : fs.Prompt view) (hs : spool.Balanced view)
    (hposition : (spool.store view).position ≤ MAX_LEN) {n : ℕ} {x : Except SpoolIoError (List UInt8)}
    (hread : read fs n spool = (x, spool')) :
    Sink.readBuf n (spool.store view) = (x, spool'.store view) ∧
      (spool'.store view).position ≤ MAX_LEN := by
  have hspec := read_spec hfs hs n
  have hanswer := read_prompt hprompt spool n
  rw [hread] at hspec hanswer
  cases hanswer
  obtain ⟨hsame, _, _⟩ := hspec
  have hstore := (Prod.mk.inj hsame).2
  rw [Except.ok.inj (Prod.mk.inj hsame).1] at hstore
  have hlength := hs.length_le
  rw [← hstore]
  refine ⟨rfl, ?_⟩
  show (spool.store view).position + _ ≤ _
  rw [List.length_take, List.length_drop]
  omega

theorem seek_in_full (hfs : fs.Faithful view) (hprompt : fs.Prompt view) (hs : spool.Balanced view)
    (hposition : (spool.store view).position ≤ MAX_LEN) {pos : SeekFrom} {x : Except SpoolIoError ℕ}
    (hfits : ∀ position, (Sink.seekTo pos (spool.store view)).1 = .ok position → position ≤ MAX_LEN)
    (hseek : seek fs pos spool = (x, spool')) :
    Sink.seekTo pos (spool.store view) = (x, spool'.store view) ∧
      (spool'.store view).position ≤ MAX_LEN := by
  have hspec := seek_spec hfs hs pos
  have hanswer := seek_prompt hprompt spool pos hfits
  rw [hseek] at hspec hanswer
  cases x with
  | error e =>
    rw [Sink.seekTo_error hanswer.symm, hspec.1.store_eq]
    exact ⟨rfl, hposition⟩
  | ok position =>
    obtain ⟨hsame, _, _⟩ := hspec
    refine ⟨hsame, ?_⟩
    rw [Sink.seekTo_ok hsame]
    exact hfits position hanswer.symm

theorem call_in_full (hfs : fs.Faithful view) (hprompt : fs.Prompt view) (hs : spool.Balanced view)
    (hposition : (spool.store view).position ≤ MAX_LEN) {c : SpoolCall}
    (hc : ∀ buf, c = .write buf → buf ≠ []) (hroom : (Sink.call c (spool.store view)).1 ≠ .error .noRoom)
    (hfits : ∀ position, (Sink.call c (spool.store view)).1 = .ok (.position position) → position ≤ MAX_LEN)
    {outcome : Except SpoolIoError SpoolAnswer} (h : (call fs c).EndsIn spool (outcome, spool'))
    (hnot : isRefused outcome = false) :
    Sink.call c (spool.store view) = (outcome, spool'.store view) ∧
      (spool'.store view).position ≤ MAX_LEN := by
  cases c with
  | write buf =>
    obtain ⟨x, rfl, hwrite⟩ := answer_endsIn.mp h
    rw [Sink.call, answer_apply] at hroom ⊢
    by_cases hle : (spool.store view).position + buf.length ≤ MAX_LEN
    · have hsome : ∀ message, x ≠ .error (.limit message) := fun message hlimit => by
        rw [hlimit] at hnot
        cases hnot
      obtain ⟨hsame, hafter⟩ := write_in_full hfs hprompt hs (hc buf rfl) hle hwrite hsome
      rw [hsame]
      exact ⟨rfl, hafter⟩
    · rw [Sink.writeBuf, if_neg hle] at hroom
      exact absurd rfl hroom
  | read n =>
    obtain ⟨x, rfl, hread⟩ := answer_endsIn.mp h
    obtain ⟨hsame, hafter⟩ := read_in_full hfs hprompt hs hposition (Loops.once_endsIn.mp hread)
    rw [Sink.call, answer_apply, hsame]
    exact ⟨rfl, hafter⟩
  | seek pos =>
    obtain ⟨x, rfl, hseek⟩ := answer_endsIn.mp h
    rw [Sink.call, answer_apply] at hfits ⊢
    have hle : ∀ position, (Sink.seekTo pos (spool.store view)).1 = .ok position → position ≤ MAX_LEN :=
      fun position hok => hfits position (by rw [hok]; rfl)
    obtain ⟨hsame, hafter⟩ := seek_in_full hfs hprompt hs hposition hle (Loops.once_endsIn.mp hseek)
    rw [hsame]
    exact ⟨rfl, hafter⟩

theorem call_refused (hfs : fs.Faithful view) (hs : spool.Balanced view) {c : SpoolCall}
    (hc : ∀ buf, c = .write buf → buf ≠ []) {outcome : Except SpoolIoError SpoolAnswer}
    (h : (call fs c).EndsIn spool (outcome, spool')) (hrefused : isRefused outcome = true) :
    spool'.store view = spool.store view := by
  obtain ⟨message, rfl⟩ := limit_of_isRefused hrefused
  have hreplays := (call_spec hfs hs hc h).replays
  have hnone : c.done (.error (.limit message)) = none := by cases c <;> rfl
  rw [hnone] at hreplays
  exact (Prod.mk.inj hreplays).2.symm

theorem run_in_full (hfs : fs.Faithful view) (hprompt : fs.Prompt view) {calls : List SpoolCall}
    {outcomes : List (Except SpoolIoError SpoolAnswer)} (hrun : Loops.Runs (call fs) calls spool outcomes last)
    (hs : spool.Balanced view) (hposition : (spool.store view).position ≤ MAX_LEN)
    (hcalls : ∀ buf, .write buf ∈ calls → buf ≠ [])
    (hfits : FitsFile (accepted calls outcomes) (spool.store view)) :
    runAll Sink.call (accepted calls outcomes) (spool.store view) =
      (outcomes.filter fun outcome => !isRefused outcome, last.store view) := by
  induction hrun with
  | nil => rfl
  | @cons c calls _ _ _ outcome _ hcall _ ih =>
    obtain ⟨hc, hcalls⟩ := forall_write_cons hcalls
    have hspec := call_spec hfs hs hc hcall
    cases hrefused : isRefused outcome with
    | true =>
      -- a refused call is left out, for it changed nothing
      have hsame := call_refused hfs hs hc hcall hrefused
      rw [accepted, hrefused, if_pos rfl] at hfits ⊢
      rw [← hsame] at hposition hfits ⊢
      rw [ih hspec.balanced hposition hcalls hfits, List.filter_cons_of_neg]
      simp [hrefused]
    | false =>
      rw [accepted, hrefused, if_neg Bool.false_ne_true] at hfits ⊢
      obtain ⟨hfirst, hrest⟩ := List.forall_mem_cons.mp hfits
      obtain ⟨hsame, hposition'⟩ := call_in_full hfs hprompt hs hposition hc hfirst.1 hfirst.2 hcall hrefused
      rw [hsame] at hrest
      rw [runAll, hsame, ih hspec.balanced hposition' hcalls hrest, List.filter_cons_of_pos]
      simp [hrefused]

theorem run_ends (hfs : fs.Faithful view) (hprompt : fs.Prompt view) {calls : List SpoolCall}
    (hs : spool.Balanced view) (hcalls : ∀ buf, .write buf ∈ calls → buf ≠ []) :
    ∃ outcomes last, Loops.Runs (call fs) calls spool outcomes last := by
  induction calls generalizing spool with
  | nil => exact ⟨[], spool, .nil spool⟩
  | cons c calls ih =>
    obtain ⟨hc, hcalls⟩ := forall_write_cons hcalls
    have hend : ∃ outcome spool', (call fs c).EndsIn spool (outcome, spool') := by
      cases c with
      | write buf =>
        obtain ⟨x, spool', hwrite, _⟩ := write_prompt hfs hprompt hs (hc buf rfl)
        exact ⟨_, spool', answer_endsIn.mpr ⟨x, rfl, hwrite⟩⟩
      | read n => exact ⟨_, _, answer_endsIn.mpr ⟨_, rfl, Loops.once_endsIn.mpr rfl⟩⟩
      | seek pos => exact ⟨_, _, answer_endsIn.mpr ⟨_, rfl, Loops.once_endsIn.mpr rfl⟩⟩
    obtain ⟨outcome, spool', hend⟩ := hend
    obtain ⟨outcomes, last, hrun⟩ := ih (call_spec hfs hs hc hend).balanced hcalls
    exact ⟨outcome :: outcomes, last, .cons hend hrun⟩

end

end AutoSpool

/-- Whatever goes wrong with the file, what a run has done is what a cursor over a vector does, and what is
charged is what memory holds and what the file was sent; where nothing goes wrong, all of it is done. -/
theorem spool_spec {ω φ : Type} {fs : FileSystem ω φ} {view : φ → ω → FileView} (hfs : fs.Faithful view)
    (memoryThreshold temporaryLimit retainedLimit : Option UInt64) (dir : Option String) {outside : ω}
    {spool : AutoSpool ω φ}
    (hnew : AutoSpool.new fs memoryThreshold dir (.new temporaryLimit retainedLimit) outside = .ok spool)
    {calls : List SpoolCall} (hcalls : ∀ buf, .write buf ∈ calls → buf ≠ []) :
    (∀ outcomes last, Loops.Runs (AutoSpool.call fs) calls spool outcomes last →
      Replays (doneCalls calls outcomes) ⟨[], 0⟩ (last.store view) ∧
      last.budget.retainedOutput.retained.toNat = last.held ∧
      last.budget.temporaryStorage.written.toNat = min (last.received view) (2 ^ 64 - 1) ∧
      last.limits = (temporaryLimit, retainedLimit) ∧
      ∀ buf message last', buf ≠ [] → (AutoSpool.write fs buf).EndsIn last (.error (.limit message), last') →
        AutoSpool.Refused view buf last last') ∧
    (fs.Prompt view → (∃ outcomes last, Loops.Runs (AutoSpool.call fs) calls spool outcomes last) ∧
      ∀ outcomes last, Loops.Runs (AutoSpool.call fs) calls spool outcomes last →
        (FitsFile (accepted calls outcomes) ⟨[], 0⟩ → runAll Sink.call (accepted calls outcomes) ⟨[], 0⟩ =
          (outcomes.filter fun outcome => !isRefused outcome, last.store view)) ∧
        ((∀ outcome ∈ outcomes, isRefused outcome = false) → FitsFile calls ⟨[], 0⟩ →
          runAll Sink.call calls ⟨[], 0⟩ = (outcomes, last.store view))) := by
  obtain ⟨hs, hempty, hlimits⟩ := AutoSpool.new_spec hfs hnew
  constructor
  · intro outcomes last hrun
    obtain ⟨hreplays, hlast, hkept⟩ := AutoSpool.run_spec hfs hrun hs hcalls
    rw [hempty] at hreplays
    refine ⟨hreplays, hlast.retained_eq, hlast.written_eq, hkept.trans hlimits, ?_⟩
    intro buf message last' hbuf hwrite
    exact (AutoSpool.write_spec hfs hlast hbuf hwrite).2 message rfl
  · intro hprompt
    refine ⟨AutoSpool.run_ends hfs hprompt hs hcalls, fun outcomes last hrun => ?_⟩
    have hposition : (spool.store view).position ≤ MAX_LEN := by
      rw [hempty]
      exact Nat.zero_le _
    have hfull := AutoSpool.run_in_full hfs hprompt hrun hs hposition hcalls
    rw [hempty] at hfull
    refine ⟨hfull, fun hnone hfits => ?_⟩
    obtain ⟨hall, hfilter⟩ := accepted_eq_self hrun.length_eq hnone
    rw [hall, hfilter] at hfull
    exact hfull hfits

/-! A disk -/

def disk : FileSystem FileView Unit where
  processId := 1
  tempDir := "/tmp"
  createDirAll _ := pure ()
  random := pure 0
  createNew _ _ := (.ok (), .fresh)
  write _ buf file :=
    if file.store.position + buf.length ≤ MAX_LEN then Writer.full buf (file.wrote buf)
    else (.error (.other 27), file)
  read _ n file :=
    let bytes := (file.store.content.drop file.store.position).take n
    (.ok ⟨bytes, List.length_take_le _ _⟩, file.moved (file.store.position + bytes.length))
  seek _ pos file :=
    let target := pos.target file.store
    if 0 ≤ target ∧ target ≤ MAX_LEN then (.ok target.toNat, file.moved target.toNat)
    else (.error .invalidInput, file)
  remove _ file := file

def diskView : Unit → FileView → FileView := fun _ file => file

theorem disk_faithful : disk.Faithful diskView where
  createNew _ _ := rfl
  write _ buf file := by
    change Outcome _ _ (ite _ _ _)
    split
    · next hfits =>
      refine ⟨hfits, ?_⟩
      rw [List.take_length]
      rfl
    · rfl
  read _ n file := ⟨List.take_prefix n _, rfl⟩
  seek _ pos file := by
    change Outcome _ _ (ite _ _ _)
    split
    · next htarget =>
      have hnonneg := Int.toNat_of_nonneg htarget.1
      exact ⟨hnonneg.symm, by have hle := htarget.2; omega, rfl⟩
    · rfl

theorem disk_prompt : disk.Prompt diskView where
  createDirAll _ _ := rfl
  random _ := ⟨0, rfl⟩
  createNew _ _ := ⟨(), rfl⟩
  write _ buf file hfits := congrArg Prod.fst (if_pos hfits)
  read _ _ _ := rfl
  seek _ pos file := by
    by_cases htarget : 0 ≤ pos.target file.store ∧ pos.target file.store ≤ MAX_LEN
    · exact (congrArg Prod.fst (if_pos htarget)).trans (if_pos htarget).symm
    · exact (congrArg Prod.fst (if_neg htarget)).trans (if_neg htarget).symm

/-- A write behind the first of three bytes goes beyond the threshold, and to the file. For the next one
there is no room. -/
def rolledCalls : List SpoolCall :=
  [.write [1, 2, 3], .seek (.Start 1), .write [7, 7, 7, 7], .write (List.replicate 14 9), .seek (.Start 0), .read 8]

def rolledOutcomes : List (Except SpoolIoError SpoolAnswer) :=
  [.ok (.wrote 3), .ok (.position 1), .ok (.wrote 4), .error (.limit "temporary storage limit exceeded"),
    .ok (.position 0), .ok (.bytes [1, 7, 7, 7, 7])]

def rolledStart : AutoSpool FileView Unit where
  memoryThreshold := some 4
  dir := none
  budget := .new (some 20) none
  temporaryStorageLimitExceeded := false
  retainedOutputLimitExceeded := false
  inner := .Memory ⟨[], 0⟩
  outside := .fresh

def rolledLast : AutoSpool FileView Unit :=
  { rolledStart with
    budget := ⟨⟨7, some 20⟩, ⟨0, none⟩⟩
    temporaryStorageLimitExceeded := true
    inner := .TempFile ()
    outside := ⟨⟨[1, 7, 7, 7, 7], 5⟩, 7⟩ }

theorem rolled_run : Loops.Runs (AutoSpool.call disk) rolledCalls rolledStart rolledOutcomes rolledLast :=
  Loops.Runs.of_runs 9 rfl

theorem rolled_fits : FitsFile (accepted rolledCalls rolledOutcomes) ⟨[], 0⟩ := by
  intro outcome houtcome
  change outcome ∈ [Except.ok (SpoolAnswer.wrote 3), .ok (.position 1), .ok (.wrote 4), .ok (.position 0),
    .ok (.bytes [1, 7, 7, 7, 7])] at houtcome
  simp only [List.mem_cons, List.not_mem_nil, or_false] at houtcome
  rcases houtcome with rfl | rfl | rfl | rfl | rfl <;> simp [MAX_LEN]

theorem spool_spec_rolled :
    Replays (doneCalls rolledCalls rolledOutcomes) ⟨[], 0⟩ ⟨[1, 7, 7, 7, 7], 5⟩ ∧
    rolledLast.budget.retainedOutput.retained.toNat = rolledLast.held ∧
    rolledLast.budget.temporaryStorage.written.toNat = min (rolledLast.received diskView) (2 ^ 64 - 1) ∧
    AutoSpool.Refused diskView (List.replicate 14 9) rolledLast rolledLast ∧
    runAll Sink.call (accepted rolledCalls rolledOutcomes) ⟨[], 0⟩ =
      (rolledOutcomes.filter fun outcome => !isRefused outcome, ⟨[1, 7, 7, 7, 7], 5⟩) ∧
    runAll Sink.call [.write [1, 2, 3]] ⟨[], 0⟩ = ([.ok (.wrote 3)], ⟨[1, 2, 3], 3⟩) := by
  have hnew : AutoSpool.new disk (some 4) none (.new (some 20) none) .fresh = .ok rolledStart := rfl
  obtain ⟨hany, hfull⟩ := spool_spec disk_faithful (some 4) (some 20) none none hnew
    (show ∀ buf, .write buf ∈ rolledCalls → buf ≠ [] by simp [rolledCalls])
  obtain ⟨hreplays, hretained, hwritten, -, hrefused⟩ := hany _ _ rolled_run
  have hwrite : (AutoSpool.write disk (List.replicate 14 9)).EndsIn rolledLast
      (.error (.limit "temporary storage limit exceeded"), rolledLast) := ⟨9, rfl⟩
  refine ⟨hreplays, hretained, hwritten, hrefused _ _ _ (by simp) hwrite,
    ((hfull disk_prompt).2 _ _ rolled_run).1 rolled_fits, ?_⟩
  -- the first write alone, which no limit refuses
  have hsome : ∀ buf, .write buf ∈ [SpoolCall.write [1, 2, 3]] → buf ≠ [] := by simp
  have hfirst := (spool_spec disk_faithful (some 4) (some 20) none none hnew hsome).2 disk_prompt
  have hrun : Loops.Runs (AutoSpool.call disk) [.write [1, 2, 3]] rolledStart [.ok (.wrote 3)]
      { rolledStart with inner := .Memory ⟨[1, 2, 3], 3⟩, budget.retainedOutput.retained := 3 } :=
    Loops.Runs.of_runs 9 rfl
  refine (hfirst.2 _ _ hrun).2 (by simp [isRefused]) ?_
  intro outcome houtcome
  cases List.mem_singleton.mp houtcome
  exact ⟨nofun, nofun⟩

/-! Where a spool differs from a cursor -/

namespace AutoSpool

section
variable {ω φ : Type} {fs : FileSystem ω φ} {view : φ → ω → FileView} {spool : AutoSpool ω φ} {file : φ}
  {buf : List UInt8}

/-- Without limits the same bytes can be written over and over. -/
theorem overwrite (hfs : fs.Faithful view) (hprompt : fs.Prompt view) (hs : spool.Balanced view)
    (hinner : spool.inner = .TempFile file) (hlimits : spool.limits = (none, none))
    (hposition : (spool.store view).position = 0) (hbuf : buf ≠ []) (hlength : buf.length ≤ MAX_LEN) :
    ∃ spool', Loops.Runs (call fs) [.write buf, .seek (.Start 0)] spool
        [.ok (.wrote buf.length), .ok (.position 0)] spool' ∧
      spool'.Balanced view ∧ spool'.inner = .TempFile file ∧ spool'.limits = (none, none) ∧
      (spool'.store view).position = 0 ∧ spool'.received view = spool.received view + buf.length := by
  obtain ⟨x, middle, hwrite, hanswer⟩ := write_prompt hfs hprompt hs hbuf
  have hspec := write_spec hfs hs hbuf hwrite
  rcases hanswer (by omega) with rfl | ⟨message, rfl⟩
  · obtain ⟨_, hwrote⟩ := hspec
    obtain ⟨hfile, hreceived⟩ := hwrote.sent file hinner
    rw [List.take_length] at hreceived
    have hseek := hfs.seek file (.Start 0) middle.outside
    have hgoes := hprompt.seek file (.Start 0) middle.outside
    rcases hrun : fs.seek file (.Start 0) middle.outside with ⟨e | position, outside⟩
    · rw [hrun] at hgoes
      simp [SeekFrom.target] at hgoes
    · rw [hrun] at hseek
      obtain ⟨htarget, hle, hview⟩ := hseek
      cases Int.ofNat.inj htarget
      have hsought : seek fs (.Start 0) middle = (.ok 0, { middle with outside }) := by
        rw [seek, onInner_file hfile, hrun]
        rfl
      obtain ⟨hbalanced, hstore⟩ := moved_file hwrote.balanced hfile hview (by decide)
      have hwritten : (call fs (.write buf)).EndsIn spool (.ok (.wrote buf.length), middle) :=
        answer_endsIn.mpr ⟨.ok buf.length, rfl, hwrite⟩
      have hback : (call fs (.seek (.Start 0))).EndsIn middle (.ok (.position 0), { middle with outside }) :=
        answer_endsIn.mpr ⟨.ok 0, rfl, Loops.once_endsIn.mpr hsought⟩
      refine ⟨{ middle with outside }, .cons hwritten (.cons hback (.nil _)), hbalanced, hfile,
        hwrote.limits_eq.trans hlimits, ?_, ?_⟩
      · rw [hstore]
        rfl
      · rw [← hreceived, received_file hfile, @received_file _ _ view { middle with outside } _ hfile, hview]
        rfl
  · -- there is no limit to refuse it
    obtain ⟨limit, hlimit, _⟩ | ⟨limit, hlimit, _⟩ := (hspec.2 message rfl).exceeds
    · rw [hlimits] at hlimit
      cases hlimit
    · rw [hlimits] at hlimit
      cases hlimit

theorem overwrite_often (hfs : fs.Faithful view) (hprompt : fs.Prompt view) (n : ℕ) (hs : spool.Balanced view)
    (hinner : spool.inner = .TempFile file) (hlimits : spool.limits = (none, none))
    (hposition : (spool.store view).position = 0) (hbuf : buf ≠ []) (hlength : buf.length ≤ MAX_LEN) :
    ∃ spool', Loops.Runs (call fs) (List.replicate n [.write buf, .seek (.Start 0)]).flatten spool
        (List.replicate n [.ok (.wrote buf.length), .ok (.position 0)]).flatten spool' ∧
      spool'.Balanced view ∧ spool'.received view = spool.received view + n * buf.length := by
  induction n generalizing spool with
  | zero => exact ⟨spool, .nil spool, hs, by rw [Nat.zero_mul, Nat.add_zero]⟩
  | succ n ih =>
    obtain ⟨middle, hround, hbalanced, hfile, hkept, hstart, hreceived⟩ :=
      overwrite hfs hprompt hs hinner hlimits hposition hbuf hlength
    obtain ⟨spool', hrounds, hlast, hsum⟩ := ih hbalanced hfile hkept hstart
    refine ⟨spool', ?_, hlast, ?_⟩
    · rw [List.replicate_succ, List.replicate_succ, List.flatten_cons, List.flatten_cons]
      exact hround.append hrounds
    · rw [hsum, hreceived, Nat.succ_mul]
      omega

end

end AutoSpool

def inFile : AutoSpool FileView Unit where
  memoryThreshold := some 0
  dir := none
  budget := .new none none
  temporaryStorageLimitExceeded := false
  retainedOutputLimitExceeded := false
  inner := .TempFile ()
  outside := .fresh

/-- No file goes where a cursor still does, and a mebibyte can be written once too often for the counter. -/
theorem spool_differs :
    AutoSpool.new disk (some 0) none (.new none none) .fresh = .ok inFile ∧
    (Loops.Runs (AutoSpool.call disk) [.seek (.Start 0x8000000000000000)] inFile [.error (.file .invalidInput)] inFile ∧
      runAll Sink.call [.seek (.Start 0x8000000000000000)] ⟨[], 0⟩ = ([.ok (.position (2 ^ 63))], ⟨[], 2 ^ 63⟩)) ∧
    ∃ calls outcomes last, Loops.Runs (AutoSpool.call disk) calls inFile outcomes last ∧
      (∀ buf, .write buf ∈ calls → buf.length = 2 ^ 20) ∧ (∀ outcome ∈ outcomes, ∃ answer, outcome = .ok answer) ∧
      last.budget.temporaryStorage.written.toNat < last.received diskView := by
  have hnew : AutoSpool.new disk (some 0) none (.new none none) .fresh = .ok inFile := rfl
  refine ⟨hnew, ⟨Loops.Runs.of_runs 1 rfl, rfl⟩, ?_⟩
  obtain ⟨hs, hempty, hlimits⟩ := AutoSpool.new_spec disk_faithful hnew
  have hlength : (List.replicate (2 ^ 20) (0 : UInt8)).length = 2 ^ 20 := List.length_replicate
  generalize List.replicate (2 ^ 20) (0 : UInt8) = buf at hlength
  have hbuf : buf ≠ [] := fun hnil => by simp [hnil] at hlength
  have hstart : (inFile.store diskView).position = 0 := rfl
  have hmax : buf.length ≤ MAX_LEN := by
    rw [hlength]
    decide
  obtain ⟨last, hrun, hlast, hreceived⟩ := AutoSpool.overwrite_often disk_faithful disk_prompt (2 ^ 44) hs rfl
    hlimits hstart hbuf hmax
  refine ⟨_, _, last, hrun, fun buf' hbuf' => ?_, fun outcome houtcome => ?_, ?_⟩
  · obtain ⟨round, hround, hbuf'⟩ := List.mem_flatten.mp hbuf'
    rw [(List.mem_replicate.mp hround).2] at hbuf'
    simp only [List.mem_cons, SpoolCall.write.injEq, reduceCtorEq, List.not_mem_nil, or_false] at hbuf'
    rw [hbuf', hlength]
  · obtain ⟨round, hround, houtcome⟩ := List.mem_flatten.mp houtcome
    rw [(List.mem_replicate.mp hround).2] at houtcome
    simp only [List.mem_cons, List.not_mem_nil, or_false] at houtcome
    rcases houtcome with rfl | rfl
    · exact ⟨_, rfl⟩
    · exact ⟨_, rfl⟩
  · rw [hlast.written_eq, hreceived, hlength]
    exact (min_le_right _ _).trans_lt (by omega)

end Write

end R7z
