import R7z.Write.Spool

/-! What an automatic spool stands for, and what each of its functions does to that and to the charges. -/

namespace R7z

open Effect Effect.Machine Write

namespace Write

/-! Counters -/

/-- There is room for another amount when it stays within the limit, if there is one. -/
def Room (used amount : UInt64) (limit : Option UInt64) : Prop :=
  ∀ bound ∈ limit, used.toNat + amount.toNat ≤ bound.toNat

theorem Room.of_le {used amount amount' : UInt64} {limit : Option UInt64} (h : Room used amount limit)
    (hle : amount'.toNat ≤ amount.toNat) : Room used amount' limit :=
  fun bound hbound => (Nat.add_le_add_left hle _).trans (h bound hbound)

theorem exists_of_no_room {used amount : UInt64} {limit : Option UInt64} (h : ¬Room used amount limit) :
    ∃ bound ∈ limit, bound.toNat < used.toNat + amount.toNat := by
  rw [Room, not_forall] at h
  obtain ⟨bound, h⟩ := h
  obtain ⟨hbound, hlt⟩ := Classical.not_imp.mp h
  exact ⟨bound, hbound, not_le.mp hlt⟩

theorem lenU64_eq (n : ℕ) : (lenU64 n).toNat = min n (2 ^ 64 - 1) := by
  rw [lenU64, UInt64.toNat_ofNat_of_lt' (by show _ < 2 ^ 64; omega)]

theorem lenU64_toNat {n : ℕ} (h : n ≤ MAX_LEN) : (lenU64 n).toNat = n := by
  unfold MAX_LEN at h
  rw [lenU64_eq, min_eq_left (by omega)]

theorem toNat_ofNat_of_le {n : ℕ} (h : n ≤ MAX_LEN) : (UInt64.ofNat n).toNat = n := by
  unfold MAX_LEN at h
  exact UInt64.toNat_ofNat_of_lt' (by show n < 2 ^ 64; omega)

theorem saturatingAdd_toNat (a b : UInt64) : (saturatingAdd a b).toNat = min (a.toNat + b.toNat) (2 ^ 64 - 1) := by
  unfold saturatingAdd
  split
  · rename_i hlt
    rw [UInt64.toNat_add, Nat.mod_eq_of_lt hlt]
    omega
  · rename_i hge
    rw [UInt64.toNat_ofNat_of_lt' (by decide)]
    omega

theorem saturatingSub_toNat (a b : UInt64) : (saturatingSub a b).toNat = a.toNat - b.toNat := by
  unfold saturatingSub
  split
  · rename_i hle
    exact UInt64.toNat_sub_of_le a b hle
  · rename_i hgt
    have hlt : a.toNat < b.toNat := UInt64.lt_iff_toNat_lt.mp (UInt64.not_le.mp hgt)
    rw [Nat.sub_eq_zero_of_le hlt.le]
    rfl

theorem nextTotal_of_room {used amount : UInt64} {limit : Option UInt64} (resource : String)
    (h : Room used amount limit) :
    ∃ total, nextTotal used amount limit resource = .ok total ∧
      total.toNat = min (used.toNat + amount.toNat) (2 ^ 64 - 1) := by
  cases limit with
  | none => exact ⟨_, rfl, saturatingAdd_toNat used amount⟩
  | some bound =>
    have hle := h bound rfl
    have hbound := bound.toNat_lt
    have hsum : (used + amount).toNat = used.toNat + amount.toNat := by
      rw [UInt64.toNat_add, Nat.mod_eq_of_lt (by omega)]
    refine ⟨used + amount, if_pos ⟨by omega, ?_⟩, by omega⟩
    rw [UInt64.le_iff_toNat_le, hsum]
    exact hle

theorem nextTotal_of_no_room {used amount : UInt64} {limit : Option UInt64} (resource : String)
    (h : ¬Room used amount limit) : ∃ e, nextTotal used amount limit resource = .error e := by
  cases limit with
  | none => exact absurd (fun bound hbound => by cases hbound) h
  | some bound =>
    refine ⟨_, if_neg fun hle => h fun bound' hbound' => ?_⟩
    cases hbound'
    have hsum : (used + amount).toNat = used.toNat + amount.toNat := by
      rw [UInt64.toNat_add, Nat.mod_eq_of_lt hle.1]
    rw [← hsum]
    exact UInt64.le_iff_toNat_le.mp hle.2

/-! Files -/

/-- A file as it is seen: its contents with the position in it, and how many bytes it was sent. -/
structure FileView where
  store : Sink
  received : ℕ
deriving DecidableEq, Repr

def FileView.fresh : FileView := ⟨⟨[], 0⟩, 0⟩

def FileView.wrote (file : FileView) (bytes : List UInt8) : FileView :=
  if bytes = [] then file else ⟨file.store.write bytes, file.received + bytes.length⟩

def FileView.moved (file : FileView) (position : ℕ) : FileView :=
  { file with store := file.store.seek position }

section
variable {ω φ : Type}

/-- What holds of files whatever goes wrong with them: an operation may fail, and then it changes nothing;
a write may take a front of what it is given, and a read hand over a front of what is there. No file gets
longer than its greatest length, and no position gets there. -/
structure FileSystem.Faithful (fs : FileSystem ω φ) (view : φ → ω → FileView) : Prop where
  createNew : ∀ path outside, Outcome (fun file outside' => view file outside' = .fresh)
    (fun _ _ => True) (fs.createNew path outside)
  write : ∀ file buf outside, Outcome
    (fun n outside' => (view file outside).store.position + n.val ≤ MAX_LEN ∧
      view file outside' = (view file outside).wrote (buf.take n.val))
    (fun _ outside' => view file outside' = view file outside) (fs.write file buf outside)
  read : ∀ file n outside, Outcome
    (fun bytes outside' =>
      bytes.val <+: (view file outside).store.content.drop (view file outside).store.position ∧
      view file outside' =
        (view file outside).moved ((view file outside).store.position + bytes.val.length))
    (fun _ outside' => view file outside' = view file outside) (fs.read file n outside)
  seek : ∀ file (pos : SeekFrom) outside, Outcome
    (fun (position : ℕ) outside' => pos.target (view file outside).store = position ∧ position ≤ MAX_LEN ∧
      view file outside' = (view file outside).moved position)
    (fun _ outside' => view file outside' = view file outside) (fs.seek file pos outside)

/-- Files with which nothing goes wrong: what fits is done, and done in full. -/
structure FileSystem.Prompt (fs : FileSystem ω φ) (view : φ → ω → FileView) : Prop where
  createDirAll : ∀ dir outside, (fs.createDirAll dir outside).1 = .ok ()
  random : ∀ outside, ∃ bytes, (fs.random outside).1 = .ok bytes
  createNew : ∀ path outside, ∃ file, (fs.createNew path outside).1 = .ok file
  write : ∀ file buf outside, (view file outside).store.position + buf.length ≤ MAX_LEN →
    (fs.write file buf outside).1 = .ok ⟨buf.length, Nat.le_refl _⟩
  read : ∀ file n outside, (fs.read file n outside).1 =
    .ok ⟨((view file outside).store.content.drop (view file outside).store.position).take n,
      List.length_take_le _ _⟩
  seek : ∀ file (pos : SeekFrom) outside, (fs.seek file pos outside).1 =
    if 0 ≤ pos.target (view file outside).store ∧ pos.target (view file outside).store ≤ MAX_LEN then
      .ok (pos.target (view file outside).store).toNat
    else .error .invalidInput

end

/-! Cursors -/

theorem Sink.write_length (sink : Sink) (bytes : List UInt8) :
    (sink.write bytes).content.length = max (sink.position + bytes.length) sink.content.length := by
  simp only [Sink.write, List.length_append, List.length_take, List.length_replicate, List.length_drop]
  omega

theorem Sink.write_behind (content bytes : List UInt8) :
    Sink.write ⟨content, content.length⟩ bytes = ⟨content ++ bytes, (content ++ bytes).length⟩ := by
  simp [Sink.write]

theorem projectedLen_toNat {cursor : Sink} (hposition : cursor.position < 2 ^ 64)
    (hlength : cursor.content.length ≤ MAX_LEN) (writeLen : UInt64) :
    (AutoSpool.projectedLen cursor writeLen).toNat =
      max (min (cursor.position + writeLen.toNat) (2 ^ 64 - 1)) cursor.content.length := by
  have hmax : ∀ a b : UInt64, (max a b).toNat = max a.toNat b.toNat := by
    intro a b
    change (if a ≤ b then b else a).toNat = _
    split
    · rename_i h
      exact (max_eq_right (UInt64.le_iff_toNat_le.mp h)).symm
    · rename_i h
      exact (max_eq_left (UInt64.lt_iff_toNat_lt.mp (UInt64.not_le.mp h)).le).symm
  rw [AutoSpool.projectedLen, hmax, saturatingAdd_toNat, toNat_ofNat_of_le hlength,
    UInt64.toNat_ofNat_of_lt' hposition]

/-! What a spool stands for -/

namespace AutoSpool

section
variable {ω φ : Type} (view : φ → ω → FileView)

def store (spool : AutoSpool ω φ) : Sink :=
  match spool.inner with
  | .Memory cursor => cursor
  | .TempFile file => (view file spool.outside).store

def held (spool : AutoSpool ω φ) : ℕ :=
  match spool.inner with
  | .Memory cursor => cursor.content.length
  | .TempFile _ => 0

def received (spool : AutoSpool ω φ) : ℕ :=
  match spool.inner with
  | .Memory _ => 0
  | .TempFile file => (view file spool.outside).received

def limits (spool : AutoSpool ω φ) : Option UInt64 × Option UInt64 :=
  (spool.budget.temporaryStorage.limit, spool.budget.retainedOutput.limit)

/-- What is charged is what memory holds and what the file was sent; the counter for the latter sticks at
the last value it has. A limit that was exceeded is one. -/
structure Balanced (spool : AutoSpool ω φ) : Prop where
  position_lt : (spool.store view).position < 2 ^ 64
  length_le : (spool.store view).content.length ≤ MAX_LEN
  retained_eq : spool.budget.retainedOutput.retained.toNat = spool.held
  written_eq : spool.budget.temporaryStorage.written.toNat = min (spool.received view) (2 ^ 64 - 1)
  temporary_limit : spool.temporaryStorageLimitExceeded = true → spool.limits.1.isSome
  retained_limit : spool.retainedOutputLimitExceeded = true → spool.limits.2.isSome

structure Kept (spool spool' : AutoSpool ω φ) : Prop where
  store_eq : spool'.store view = spool.store view
  balanced : spool'.Balanced view
  limits_eq : spool'.limits = spool.limits

def Exceeds (buf : List UInt8) (spool : AutoSpool ω φ) : Prop :=
  (∃ limit ∈ spool.limits.1,
    limit.toNat < spool.budget.temporaryStorage.written.toNat + (spool.held + buf.length)) ∨
  ∃ limit ∈ spool.limits.2, limit.toNat <
    max ((spool.store view).position + buf.length) (spool.store view).content.length

/-- A limit refuses the write: but for the note that it did, all stays as it is, and the caller is told
which limit it was. -/
structure Refused (buf : List UInt8) (spool spool' : AutoSpool ω φ) : Prop where
  inner_eq : spool'.inner = spool.inner
  outside_eq : spool'.outside = spool.outside
  budget_eq : spool'.budget = spool.budget
  exceeds : Exceeds view buf spool
  told : ∃ resource limit, spool'.limitError = some (.resourceLimitExceeded resource limit)

structure Wrote (bytes : List UInt8) (spool spool' : AutoSpool ω φ) : Prop where
  fits : (spool.store view).position + bytes.length ≤ MAX_LEN
  store_eq : spool'.store view = if bytes = [] then spool.store view else (spool.store view).write bytes
  balanced : spool'.Balanced view
  limits_eq : spool'.limits = spool.limits
  sent : ∀ file, spool.inner = .TempFile file →
    spool'.inner = .TempFile file ∧ spool'.received view = spool.received view + bytes.length

/-- What is known of a write: a front of the bytes is written, or nothing, and a limit only refuses it where
it would be exceeded. -/
def WriteSpec (buf : List UInt8) (spool : AutoSpool ω φ) :
    Except SpoolIoError ℕ × AutoSpool ω φ → Prop :=
  Outcome (fun n spool' => n ≤ buf.length ∧ Wrote view (buf.take n) spool spool') fun e spool' =>
    Kept view spool spool' ∧ ∀ message, e = .limit message → Refused view buf spool spool'

def HasRoom (spool : AutoSpool ω φ) (bytes : UInt64) : Prop :=
  Room spool.budget.temporaryStorage.written bytes spool.budget.temporaryStorage.limit

/-- Where the spool is in a file there is room for every front of the bytes that fits. -/
def Ready (buf : List UInt8) (spool : AutoSpool ω φ) : Prop :=
  ∀ file, spool.inner = .TempFile file → ∀ n, n ≤ buf.length →
    (spool.store view).position + n ≤ MAX_LEN → spool.HasRoom (lenU64 n)

end

section
variable {ω φ : Type} {view : φ → ω → FileView} {spool spool' : AutoSpool ω φ} {buf : List UInt8}
  {bytes : UInt64} {cursor : Sink} {file : φ}

theorem Kept.refl (hs : spool.Balanced view) : Kept view spool spool := ⟨rfl, hs, rfl⟩

theorem Kept.trans {spool'' : AutoSpool ω φ} (h : Kept view spool spool')
    (h' : Kept view spool' spool'') : Kept view spool spool'' :=
  ⟨h'.store_eq.trans h.store_eq, h'.balanced, h'.limits_eq.trans h.limits_eq⟩

theorem store_memory (hinner : spool.inner = .Memory cursor) : spool.store view = cursor := by
  rw [store, hinner]

theorem store_file (hinner : spool.inner = .TempFile file) :
    spool.store view = (view file spool.outside).store := by
  rw [store, hinner]

theorem held_memory (hinner : spool.inner = .Memory cursor) : spool.held = cursor.content.length := by
  rw [held, hinner]

theorem held_file (hinner : spool.inner = .TempFile file) : spool.held = 0 := by
  rw [held, hinner]

theorem received_memory (hinner : spool.inner = .Memory cursor) : spool.received view = 0 := by
  rw [received, hinner]

theorem received_file (hinner : spool.inner = .TempFile file) :
    spool.received view = (view file spool.outside).received := by
  rw [received, hinner]

theorem store_outside {outside : ω}
    (hview : ∀ file, spool.inner = .TempFile file → view file outside = view file spool.outside) :
    ({ spool with outside } : AutoSpool ω φ).store view = spool.store view := by
  unfold store
  cases hinner : spool.inner with
  | Memory cursor => rfl
  | TempFile file => exact congrArg FileView.store (hview file hinner)

theorem received_outside {outside : ω} (hview : ∀ file, spool.inner = .TempFile file →
      (view file outside).received = (view file spool.outside).received) :
    ({ spool with outside } : AutoSpool ω φ).received view = spool.received view := by
  unfold received
  cases hinner : spool.inner with
  | Memory cursor => rfl
  | TempFile file => exact hview file hinner

/-- The charges stay right where only the position changes. -/
theorem Balanced.moved (hs : spool.Balanced view) {inner : AutoSpoolInner φ} {outside : ω}
    (hcontent : (({ spool with inner, outside } : AutoSpool ω φ).store view).content =
      (spool.store view).content)
    (hposition : (({ spool with inner, outside } : AutoSpool ω φ).store view).position < 2 ^ 64)
    (hheld : ({ spool with inner, outside } : AutoSpool ω φ).held = spool.held)
    (hreceived : ({ spool with inner, outside } : AutoSpool ω φ).received view = spool.received view) :
    ({ spool with inner, outside } : AutoSpool ω φ).Balanced view where
  position_lt := hposition
  length_le := by
    rw [hcontent]
    exact hs.length_le
  retained_eq := by
    rw [hheld]
    exact hs.retained_eq
  written_eq := by
    rw [hreceived]
    exact hs.written_eq
  temporary_limit := hs.temporary_limit
  retained_limit := hs.retained_limit

theorem Kept.of_outside (hs : spool.Balanced view) {outside : ω}
    (hview : ∀ file, spool.inner = .TempFile file → view file outside = view file spool.outside) :
    Kept view spool { spool with outside } := by
  have hstore := store_outside hview
  have hreceived := received_outside fun file hfile => congrArg FileView.received (hview file hfile)
  refine ⟨hstore, hs.moved (congrArg Sink.content hstore) ?_ rfl hreceived, rfl⟩
  rw [hstore]
  exact hs.position_lt

theorem Kept.outside (hs : spool.Balanced view) (hinner : spool.inner = .Memory cursor) (outside : ω) :
    Kept view spool { spool with outside } :=
  Kept.of_outside hs fun _ hfile => absurd (hinner.symm.trans hfile) nofun

theorem Kept.in_file (hs : spool.Balanced view) (hinner : spool.inner = .TempFile file) {outside : ω}
    (hview : view file outside = view file spool.outside) : Kept view spool { spool with outside } := by
  apply Kept.of_outside hs
  intro file' hfile
  cases hinner.symm.trans hfile
  exact hview

/-- In memory, as much is charged as the vector holds, and nothing for a file. -/
theorem Balanced.in_memory (hs : spool.Balanced view) (hinner : spool.inner = .Memory cursor) :
    cursor.position < 2 ^ 64 ∧ cursor.content.length ≤ MAX_LEN ∧
      spool.budget.retainedOutput.retained.toNat = cursor.content.length ∧
      spool.budget.temporaryStorage.written.toNat = 0 := by
  have hposition := hs.position_lt
  have hlength := hs.length_le
  have hretained := hs.retained_eq
  have hwritten := hs.written_eq
  rw [store_memory hinner] at hposition hlength
  rw [held_memory hinner] at hretained
  rw [received_memory hinner, Nat.zero_min] at hwritten
  exact ⟨hposition, hlength, hretained, hwritten⟩

/-! The checks -/

theorem refused_temporary (hs : spool.Balanced view) (hroom : ¬spool.HasRoom bytes)
    (hbytes : bytes.toNat ≤ spool.held + buf.length) :
    Kept view spool { spool with temporaryStorageLimitExceeded := true } ∧
      Refused view buf spool { spool with temporaryStorageLimitExceeded := true } := by
  obtain ⟨limit, hlimit, hlt⟩ := exists_of_no_room hroom
  have hsome : spool.limits.1.isSome := Option.isSome_iff_exists.mpr ⟨limit, hlimit⟩
  refine ⟨⟨rfl, { hs with temporary_limit := fun _ => hsome }, rfl⟩, rfl, rfl, rfl,
    .inl ⟨limit, hlimit, hlt.trans_le (Nat.add_le_add_left hbytes _)⟩, ?_⟩
  unfold limitError
  dsimp only
  by_cases hflag : spool.retainedOutputLimitExceeded = true
  · obtain ⟨retained, hretained⟩ := Option.isSome_iff_exists.mp (hs.retained_limit hflag)
    rw [if_pos hflag, show spool.budget.retainedOutput.limit = some retained from hretained]
    exact ⟨_, _, rfl⟩
  · rw [if_neg hflag, if_pos rfl, Option.mem_def.mp hlimit]
    exact ⟨_, _, rfl⟩

theorem checkTemporaryStorageWrite_ok (h : spool.HasRoom bytes) :
    checkTemporaryStorageWrite bytes spool = (.ok (), spool) := by
  obtain ⟨total, htotal, -⟩ := nextTotal_of_room "temporary storage" h
  rw [checkTemporaryStorageWrite, TemporaryStorageBudget.checkWrite, htotal]
  rfl

theorem checkTemporaryStorageWrite_error (h : ¬spool.HasRoom bytes) :
    checkTemporaryStorageWrite bytes spool = (.error (.limit "temporary storage limit exceeded"),
      { spool with temporaryStorageLimitExceeded := true }) := by
  obtain ⟨e, herror⟩ := nextTotal_of_no_room "temporary storage" h
  rw [checkTemporaryStorageWrite, TemporaryStorageBudget.checkWrite, herror]
  rfl

theorem chargeTemporaryStorageWrite_ok (h : spool.HasRoom bytes) :
    ∃ written, chargeTemporaryStorageWrite bytes spool =
        (.ok (), { spool with budget.temporaryStorage.written := written }) ∧
      written.toNat = min (spool.budget.temporaryStorage.written.toNat + bytes.toNat) (2 ^ 64 - 1) := by
  obtain ⟨total, htotal, hvalue⟩ := nextTotal_of_room "temporary storage" h
  refine ⟨total, ?_, hvalue⟩
  rw [chargeTemporaryStorageWrite, TemporaryStorageBudget.chargeWrite, htotal]
  rfl

theorem checkTemporaryFileWrite_spec (hs : spool.Balanced view) (hbuf : buf ≠ []) :
    Outcome (fun _ spool' => spool' = spool ∧ Ready view buf spool)
      (fun e spool' => (∃ message, e = .limit message) ∧ Kept view spool spool' ∧
        Refused view buf spool spool') (checkTemporaryFileWrite buf.length spool) := by
  have hlen : buf.length ≠ 0 := fun hzero => hbuf (List.length_eq_zero_iff.mp hzero)
  rw [checkTemporaryFileWrite, bind_of_ok (rfl : Machine.get spool = (.ok spool, spool))]
  cases hinner : spool.inner with
  | Memory cursor => exact ⟨rfl, fun file hfile => absurd (hinner.symm.trans hfile) nofun⟩
  | TempFile file =>
    dsimp only
    rw [if_neg hlen]
    by_cases hroom : spool.HasRoom (lenU64 buf.length)
    · rw [checkTemporaryStorageWrite_ok hroom]
      refine ⟨rfl, fun _ _ n hn _ => hroom.of_le ?_⟩
      rw [lenU64_eq, lenU64_eq]
      omega
    · rw [checkTemporaryStorageWrite_error hroom]
      -- a write that is refused is one that goes beyond the limit
      have hbytes : (lenU64 buf.length).toNat ≤ spool.held + buf.length := by
        rw [lenU64_eq]
        omega
      exact ⟨⟨_, rfl⟩, refused_temporary hs hroom hbytes⟩

/-! The move to a file -/

variable {fs : FileSystem ω φ} {outside outside' : ω}

theorem onOutside_ok {ε α : Type} {f : ε → SpoolIoError} {m : Machine ω ε α} {a : α}
    (h : onOutside f m spool = (.ok a, spool')) :
    ∃ outside', m spool.outside = (.ok a, outside') ∧ spool' = { spool with outside := outside' } := by
  unfold onOutside at h
  rcases hm : m spool.outside with ⟨e | a', outside'⟩
  · rw [hm] at h
    cases h
  · rw [hm] at h
    cases h
    exact ⟨outside', rfl, rfl⟩

theorem onOutside_error {ε α : Type} {f : ε → SpoolIoError} {m : Machine ω ε α} {e : SpoolIoError}
    (h : onOutside f m spool = (.error e, spool')) :
    (∃ e', e = f e') ∧ ∃ outside', spool' = { spool with outside := outside' } := by
  unfold onOutside at h
  rcases hm : m spool.outside with ⟨e' | a, outside'⟩
  · rw [hm] at h
    cases h
    exact ⟨⟨e', rfl⟩, outside', rfl⟩
  · rw [hm] at h
    cases h

theorem createAttempts_fresh (hfs : fs.Faithful view) (dir : String) (left : ℕ) : ∀ attempt,
    Meets (fun _ => True) (createAttempts fs dir left attempt)
      (fun file outside => view file outside = .fresh) fun _ _ => True := by
  induction left with
  | zero => exact fun _ => Meets.fail fun _ _ => trivial
  | succ left ih =>
    intro attempt
    have hany : Meets (fun _ => True) (orFail (fun _ => R7zError.parse) fs.random)
        (fun _ _ => True) fun _ _ => True := Meets.of_ok fun _ _ _ _ _ => trivial
    refine hany.bind fun random => ?_
    have hcreate : Meets (fun _ => True) (fs.createNew (dir ++ "/" ++ spoolName fs.processId attempt random))
        (fun file outside => view file outside = .fresh) fun _ _ => True :=
      fun outside _ => hfs.createNew _ outside
    refine (Meets.attempt hcreate).bind fun x => ?_
    cases x with
    | ok file => exact Meets.pure fun _ h => h
    | error e =>
      cases e with
      | alreadyExists => exact (ih (attempt + 1)).pre fun _ _ => trivial
      | interrupted | writeZero | invalidInput | other => exact Meets.fail fun _ _ => trivial

theorem createTempSpool_fresh (hfs : fs.Faithful view) (dir : Option String) :
    Meets (fun _ => True) (createTempSpool fs dir) (fun file outside => view file outside = .fresh)
      fun _ _ => True := by
  have hany : Meets (fun _ => True) (orFail (fun _ => R7zError.io) (fs.createDirAll (dir.getD fs.tempDir)))
      (fun _ _ => True) fun _ _ => True := Meets.of_ok fun _ _ _ _ _ => trivial
  exact hany.bind fun _ => createAttempts_fresh hfs _ _ _

theorem write_extends (hfs : fs.Faithful view) (file : φ) : (fs.write file).Extends
    fun done outside => view file outside = ⟨⟨done, done.length⟩, done.length⟩ := by
  intro done items outside hview
  have hwrite := hfs.write file items outside
  rcases hrun : fs.write file items outside with ⟨e | n, outside'⟩
  · rw [hrun] at hwrite
    exact Eq.trans hwrite hview
  · rw [hrun] at hwrite
    obtain ⟨_, hwrote⟩ := hwrite
    rw [hview, FileView.wrote] at hwrote
    by_cases hnil : items.take n.val = []
    · rw [if_pos hnil] at hwrote
      show view file outside' = _
      rw [hnil, List.append_nil]
      exact hwrote
    · rw [if_neg hnil, Sink.write_behind, ← List.length_append] at hwrote
      exact hwrote

theorem copyToFile_ok (hfs : fs.Faithful view) (hview : view file outside = .fresh)
    (hposition : cursor.position < 2 ^ 64)
    (h : (copyToFile fs file cursor).EndsIn outside (.ok (), outside')) :
    view file outside' = ⟨cursor, cursor.content.length⟩ := by
  obtain ⟨_, middle, hwrite, h⟩ := Loops.bind_ok.mp h
  obtain ⟨position, _, hseek, h⟩ := Loops.bind_ok.mp h
  cases Loops.pure_endsIn.mp h
  have hwritten := @Effect.Writer.Extends.writeAll_ok _ _ _ _ _ _ (write_extends hfs file) [] _ _ _ hview hwrite
  have hsought := hfs.seek file (.Start (UInt64.ofNat cursor.position)) middle
  rw [Loops.once_endsIn.mp hseek] at hsought
  obtain ⟨htarget, _, hmoved⟩ := hsought
  rw [SeekFrom.target, UInt64.toNat_ofNat_of_lt' hposition] at htarget
  rw [hmoved, hwritten, List.nil_append, ← Int.ofNat.inj htarget]
  rfl

/-- Moved to a file: the contents are the same, and there is room for the write that led to it. -/
structure Rolled (view : φ → ω → FileView) (buf : List UInt8) (spool spool' : AutoSpool ω φ) : Prop where
  kept : Kept view spool spool'
  from_memory : ∃ cursor, spool.inner = .Memory cursor
  in_file : ∃ file, spool'.inner = .TempFile file
  ready : Ready view buf spool'

theorem switchTo_rolls (hs : spool.Balanced view) (hinner : spool.inner = .Memory cursor)
    (hview : view file spool.outside = ⟨cursor, cursor.content.length⟩)
    (hroom : spool.HasRoom (saturatingAdd (UInt64.ofNat cursor.content.length) (lenU64 buf.length))) :
    ∃ spool', switchTo file (UInt64.ofNat cursor.content.length) spool = (.ok (), spool') ∧
      Rolled view buf spool spool' := by
  obtain ⟨_, hlength, hretained, hwritten⟩ := hs.in_memory hinner
  have hmax : MAX_LEN = 2 ^ 63 - 1 := rfl
  have hmigration := toNat_ofNat_of_le hlength
  have hsmall : spool.HasRoom (UInt64.ofNat cursor.content.length) := by
    refine hroom.of_le ?_
    rw [saturatingAdd_toNat]
    omega
  obtain ⟨written, hcharge, hvalue⟩ := chargeTemporaryStorageWrite_ok hsmall
  rw [hwritten, hmigration, Nat.zero_add] at hvalue
  refine ⟨_, bind_of_ok hcharge, ?_, ⟨cursor, hinner⟩, ⟨file, rfl⟩, ?_⟩
  · have hstore : (view file spool.outside).store = spool.store view := by
      rw [hview, store_memory hinner]
    refine ⟨hstore, ⟨?_, ?_, ?_, ?_, hs.temporary_limit, hs.retained_limit⟩, rfl⟩
    · show (view file spool.outside).store.position < 2 ^ 64
      rw [hstore]
      exact hs.position_lt
    · show (view file spool.outside).store.content.length ≤ MAX_LEN
      rw [hstore]
      exact hs.length_le
    · show (saturatingSub _ _).toNat = 0
      rw [saturatingSub_toNat, hretained, hmigration, Nat.sub_self]
    · show written.toNat = min (view file spool.outside).received _
      rw [hvalue, hview]
  · -- the check before the move was for the vector and the write together
    intro file' hfile n hn hfits bound hbound
    cases hfile
    change (view file spool.outside).store.position + n ≤ MAX_LEN at hfits
    have hamount : (lenU64 n).toNat = n := lenU64_toNat (Nat.le_of_add_left_le hfits)
    have hle := hroom bound hbound
    rw [saturatingAdd_toNat, hmigration, lenU64_eq, hwritten] at hle
    show written.toNat + _ ≤ _
    rw [hvalue, hamount]
    omega

/-- The spool is in a file afterwards, or in memory as before. -/
theorem migrate_spec (hfs : fs.Faithful view) (hs : spool.Balanced view)
    (hinner : spool.inner = .Memory cursor) {dir : Option String}
    (hroom : spool.HasRoom (saturatingAdd (UInt64.ofNat cursor.content.length) (lenU64 buf.length)))
    {o : Except SpoolIoError Unit × AutoSpool ω φ} (h : (migrate fs cursor dir).EndsIn spool o) :
    Outcome (fun _ spool' => Rolled view buf spool spool')
      (fun e spool' => Kept view spool spool' ∧ ∀ message, e ≠ .limit message) o := by
  rcases Loops.bind_endsIn h with ⟨file, spool₁, hcreate, h⟩ | ⟨e, spool₁, hcreate, rfl⟩
  · obtain ⟨outside₁, hcreated, rfl⟩ := onOutside_ok (Loops.once_endsIn.mp hcreate)
    have hfresh := (createTempSpool_fresh hfs dir).ok trivial hcreated
    obtain ⟨x, spool₂, hcopy, h⟩ | ⟨e, spool₂, hcopy, rfl⟩ := Loops.bind_endsIn h
    · obtain ⟨x, heq, hattempt⟩ := Loops.attempt_endsIn.mp hcopy
      cases heq
      obtain ⟨outside₂, rfl, hcopied⟩ := Loops.focus_endsIn.mp hattempt
      have hkept := Kept.outside hs hinner outside₂
      cases x with
      | error e =>
        -- the new file does not take the vector: it is removed, and nothing was charged for it
        cases Loops.once_endsIn.mp h
        exact ⟨Kept.outside hs hinner _, nofun⟩
      | ok =>
        have hview := copyToFile_ok hfs hfresh (store_memory hinner ▸ hs.position_lt) hcopied
        obtain ⟨spool₃, hswitch, hrolled⟩ := @switchTo_rolls _ _ view { spool with outside := outside₂ } buf
          cursor file hkept.balanced hinner hview hroom
        rw [← Loops.once_endsIn.mp h, hswitch]
        exact ⟨hkept.trans hrolled.kept, ⟨cursor, hinner⟩, hrolled.in_file, hrolled.ready⟩
    · obtain ⟨_, heq, _⟩ := Loops.attempt_endsIn.mp hcopy
      cases heq
  · obtain ⟨⟨_, rfl⟩, outside₁, rfl⟩ := onOutside_error (Loops.once_endsIn.mp hcreate)
    exact ⟨Kept.outside hs hinner _, nofun⟩

theorem maybeRollToFile_spec (hfs : fs.Faithful view) (hs : spool.Balanced view)
    {o : Except SpoolIoError Unit × AutoSpool ω φ}
    (h : (maybeRollToFile fs (lenU64 buf.length)).EndsIn spool o) :
    Outcome (fun _ spool' => spool' = spool ∨ Rolled view buf spool spool')
      (fun e spool' => Kept view spool spool' ∧ ∀ message, e = .limit message →
        Refused view buf spool spool') o := by
  rw [maybeRollToFile, Loops.once_bind (rfl : Machine.get spool = (.ok spool, spool))] at h
  cases hinner : spool.inner with
  | TempFile file =>
    rw [hinner] at h
    cases Loops.pure_endsIn.mp h
    exact .inl rfl
  | Memory cursor =>
    rw [hinner] at h
    dsimp only at h
    split at h
    · by_cases hroom : spool.HasRoom (saturatingAdd (UInt64.ofNat cursor.content.length) (lenU64 buf.length))
      · rw [Loops.once_bind (checkTemporaryStorageWrite_ok hroom)] at h
        refine (migrate_spec hfs hs hinner hroom h).mono (fun _ _ hrolled => .inr hrolled) ?_
        exact fun e _ ⟨hkept, hother⟩ => ⟨hkept, fun message hmessage => absurd hmessage (hother message)⟩
      · rw [Loops.once_bind_error (checkTemporaryStorageWrite_error hroom)] at h
        cases h
        obtain ⟨_, hlength, _, _⟩ := hs.in_memory hinner
        have hbytes : (saturatingAdd (UInt64.ofNat cursor.content.length) (lenU64 buf.length)).toNat ≤
            spool.held + buf.length := by
          rw [saturatingAdd_toNat, toNat_ofNat_of_le hlength, lenU64_eq, held_memory hinner]
          omega
        obtain ⟨hkept, hrefused⟩ := refused_temporary hs hroom hbytes
        exact ⟨hkept, fun _ _ => hrefused⟩
    · cases Loops.pure_endsIn.mp h
      exact .inl rfl

/-! Accesses -/

theorem onInner_memory {α β : Type} {f : α → β} {memory : Machine Sink SpoolIoError β}
    {onFile : φ → Machine ω FileError α} (hinner : spool.inner = .Memory cursor) :
    onInner f memory onFile spool = ((memory cursor).1, { spool with inner := .Memory (memory cursor).2 }) := by
  rw [onInner, hinner]

theorem onInner_file {α β : Type} {f : α → β} {memory : Machine Sink SpoolIoError β}
    {onFile : φ → Machine ω FileError α} (hinner : spool.inner = .TempFile file) :
    onInner f memory onFile spool = (((onFile file spool.outside).1.mapError .file).map f,
      { spool with outside := (onFile file spool.outside).2 }) := by
  rw [onInner, hinner]

theorem chargeTemporaryFileWrite_file (hinner : spool.inner = .TempFile file) (n : ℕ) :
    chargeTemporaryFileWrite n spool =
      if n = 0 then (.ok (), spool) else chargeTemporaryStorageWrite (lenU64 n) spool := by
  rw [chargeTemporaryFileWrite, bind_of_ok (rfl : Machine.get spool = (.ok spool, spool)), hinner]
  dsimp only
  split
  · rfl
  · rfl

theorem wrote_nothing (hkept : Kept view spool spool') (hinner : spool'.inner = spool.inner)
    (hreceived : spool'.received view = spool.received view)
    (hfits : (spool.store view).position ≤ MAX_LEN) : Wrote view [] spool spool' where
  fits := hfits
  store_eq := hkept.store_eq
  balanced := hkept.balanced
  limits_eq := hkept.limits_eq
  sent _ hfile := ⟨hinner.trans hfile, hreceived⟩

theorem wrote_file (hs : spool.Balanced view) (hinner : spool.inner = .TempFile file)
    {bytes : List UInt8} (hsome : bytes ≠ [])
    (hfits : (spool.store view).position + bytes.length ≤ MAX_LEN)
    (hview : view file outside = (view file spool.outside).wrote bytes) {written : UInt64}
    (hwritten : written.toNat =
      min (spool.budget.temporaryStorage.written.toNat + bytes.length) (2 ^ 64 - 1)) :
    Wrote view bytes spool { spool with outside, budget.temporaryStorage.written := written } := by
  rw [FileView.wrote, if_neg hsome] at hview
  have hstore : (view file outside).store = (spool.store view).write bytes := by
    rw [hview, store_file hinner]
  have hinner' : ({ spool with outside, budget.temporaryStorage.written := written } :
      AutoSpool ω φ).inner = .TempFile file := hinner
  have hmax : MAX_LEN < 2 ^ 64 := by decide
  have hreceived : ({ spool with outside, budget.temporaryStorage.written := written } :
      AutoSpool ω φ).received view = spool.received view + bytes.length := by
    rw [received_file hinner', received_file hinner]
    exact congrArg FileView.received hview
  refine ⟨hfits, ?_, ⟨?_, ?_, ?_, ?_, hs.temporary_limit, hs.retained_limit⟩, rfl,
    fun _ hfile => ⟨hfile, hreceived⟩⟩
  · rw [if_neg hsome, store_file hinner']
    exact hstore
  · rw [store_file hinner']
    show (view file outside).store.position < _
    rw [hstore]
    exact hfits.trans_lt hmax
  · rw [store_file hinner']
    show (view file outside).store.content.length ≤ _
    rw [hstore, Sink.write_length]
    exact max_le hfits hs.length_le
  · rw [held_file hinner', ← held_file hinner]
    exact hs.retained_eq
  · have hbefore := hs.written_eq
    rw [hreceived]
    show written.toNat = _
    rw [hwritten, hbefore]
    omega

theorem writeThrough_file (hfs : fs.Faithful view) (hs : spool.Balanced view)
    (hinner : spool.inner = .TempFile file) (hready : Ready view buf spool) :
    Outcome (fun n spool' => (fs.write file buf spool.outside).1.map Subtype.val = .ok n ∧ n ≤ buf.length ∧
        Wrote view (buf.take n) spool spool')
      (fun e spool' => (∃ e', (fs.write file buf spool.outside).1 = .error e' ∧ e = .file e') ∧
        Kept view spool spool') (writeThrough fs buf spool) := by
  have hcheck : checkRetainedMemoryWrite (lenU64 buf.length) spool = (.ok (), spool) := by
    rw [checkRetainedMemoryWrite, hinner]
  have hprevious : spool.previousLen = none := by rw [previousLen, hinner]
  have hinto : writeInner fs buf spool =
      (((fs.write file buf spool.outside).1.mapError .file).map Subtype.val,
        { spool with outside := (fs.write file buf spool.outside).2 }) := onInner_file hinner
  have hwrite := hfs.write file buf spool.outside
  rw [writeThrough, bind_of_ok (rfl : Machine.get spool = (.ok spool, spool)), bind_of_ok hcheck]
  rcases hrun : fs.write file buf spool.outside with ⟨e | n, outside⟩
  · rw [hrun] at hwrite hinto
    rw [bind_of_error hinto]
    exact ⟨⟨e, rfl, rfl⟩, Kept.in_file hs hinner hwrite⟩
  · rw [hrun] at hwrite hinto
    obtain ⟨hfits, hview⟩ := hwrite
    have hlength : (buf.take n.val).length = n.val := List.length_take_of_le n.property
    have hcharge := @chargeTemporaryFileWrite_file _ _ { spool with outside } file hinner n.val
    rw [← store_file hinner] at hfits
    rw [bind_of_ok hinto, hprevious]
    -- a file may take nothing, and nothing is charged then
    by_cases hnil : buf.take n.val = []
    · have hzero : n.val = 0 := by rw [← hlength, hnil, List.length_nil]
      rw [if_pos hzero] at hcharge
      rw [hnil, FileView.wrote, if_pos rfl] at hview
      rw [bind_of_ok hcharge]
      refine ⟨rfl, n.property, ?_⟩
      rw [hnil]
      refine wrote_nothing (Kept.in_file hs hinner hview) rfl ?_ (Nat.le_of_add_right_le hfits)
      apply received_outside
      intro file' hfile
      cases hinner.symm.trans hfile
      rw [hview]
    · have hzero : n.val ≠ 0 := fun hzero => hnil (by rw [hzero, List.take_zero])
      obtain ⟨written, hcharged, hvalue⟩ :=
        @chargeTemporaryStorageWrite_ok _ _ { spool with outside } _ (hready file hinner n.val n.property hfits)
      rw [if_neg hzero, hcharged] at hcharge
      rw [bind_of_ok hcharge]
      refine ⟨rfl, n.property, wrote_file hs hinner hnil (hlength.symm ▸ hfits) hview ?_⟩
      rw [hvalue, lenU64_toNat (Nat.le_of_add_left_le hfits), hlength]

theorem refused_retained (hs : spool.Balanced view) (hinner : spool.inner = .Memory cursor)
    {retained : UInt64} (hretained : retained.toNat = 0)
    (hroom : ¬Room retained (projectedLen cursor (lenU64 buf.length)) spool.budget.retainedOutput.limit) :
    Kept view spool { spool with retainedOutputLimitExceeded := true } ∧
      Refused view buf spool { spool with retainedOutputLimitExceeded := true } := by
  obtain ⟨limit, hlimit, hlt⟩ := exists_of_no_room hroom
  have hsome : spool.limits.2.isSome := Option.isSome_iff_exists.mpr ⟨limit, hlimit⟩
  obtain ⟨hposition, hlength, _, _⟩ := hs.in_memory hinner
  rw [hretained, projectedLen_toNat hposition hlength, lenU64_eq] at hlt
  refine ⟨⟨rfl, { hs with retained_limit := fun _ => hsome }, rfl⟩, rfl, rfl, rfl,
    .inr ⟨limit, hlimit, ?_⟩, ?_⟩
  · rw [store_memory hinner]
    omega
  · unfold limitError
    dsimp only
    rw [if_pos rfl, Option.mem_def.mp hlimit]
    exact ⟨_, _, rfl⟩

/-- Memory took these bytes, and as many are charged as it holds then. -/
theorem wrote_memory (hs : spool.Balanced view) (hinner : spool.inner = .Memory cursor) (hbuf : buf ≠ [])
    (hfits : cursor.position + buf.length ≤ MAX_LEN) {retained : UInt64}
    (hretained : retained.toNat = (cursor.write buf).content.length) :
    Wrote view buf spool
      { spool with inner := .Memory (cursor.write buf), budget.retainedOutput.retained := retained } := by
  obtain ⟨_, hlength, _, _⟩ := hs.in_memory hinner
  have hwritten := hs.written_eq
  rw [received_memory hinner] at hwritten
  refine ⟨?_, ?_, ⟨?_, ?_, hretained, hwritten, hs.temporary_limit, hs.retained_limit⟩, rfl,
    fun file hfile => absurd (hinner.symm.trans hfile) nofun⟩
  · rw [store_memory hinner]
    exact hfits
  · rw [if_neg hbuf, store_memory hinner]
    rfl
  · show cursor.position + buf.length < 2 ^ 64
    exact hfits.trans_lt (by decide)
  · show (cursor.write buf).content.length ≤ MAX_LEN
    rw [Sink.write_length]
    exact max_le hfits hlength

theorem checkRetainedMemoryWrite_ok (hinner : spool.inner = .Memory cursor)
    (h : Room (saturatingSub spool.budget.retainedOutput.retained (UInt64.ofNat cursor.content.length))
      (projectedLen cursor bytes) spool.budget.retainedOutput.limit) :
    checkRetainedMemoryWrite bytes spool = (.ok (), spool) := by
  obtain ⟨total, htotal, -⟩ := nextTotal_of_room "retained output" h
  rw [checkRetainedMemoryWrite, hinner]
  dsimp only
  rw [RetainedOutputBudget.checkResize, RetainedOutputBudget.resizedTotal, htotal]
  rfl

theorem checkRetainedMemoryWrite_error (hinner : spool.inner = .Memory cursor)
    (h : ¬Room (saturatingSub spool.budget.retainedOutput.retained (UInt64.ofNat cursor.content.length))
      (projectedLen cursor bytes) spool.budget.retainedOutput.limit) :
    checkRetainedMemoryWrite bytes spool = (.error (.limit "retained output limit exceeded"),
      { spool with retainedOutputLimitExceeded := true }) := by
  obtain ⟨e, herror⟩ := nextTotal_of_no_room "retained output" h
  rw [checkRetainedMemoryWrite, hinner]
  dsimp only
  rw [RetainedOutputBudget.checkResize, RetainedOutputBudget.resizedTotal, herror]
  rfl

theorem chargeRetainedMemoryWrite_ok (hinner : spool.inner = .Memory cursor)
    (h : Room (saturatingSub spool.budget.retainedOutput.retained bytes)
      (UInt64.ofNat cursor.content.length) spool.budget.retainedOutput.limit) :
    ∃ retained, chargeRetainedMemoryWrite bytes spool =
        (.ok (), { spool with budget.retainedOutput.retained := retained }) ∧
      retained.toNat = min ((saturatingSub spool.budget.retainedOutput.retained bytes).toNat +
        (UInt64.ofNat cursor.content.length).toNat) (2 ^ 64 - 1) := by
  obtain ⟨total, htotal, hvalue⟩ := nextTotal_of_room "retained output" h
  refine ⟨total, ?_, hvalue⟩
  rw [chargeRetainedMemoryWrite, hinner]
  dsimp only
  rw [RetainedOutputBudget.resize, RetainedOutputBudget.resizedTotal, htotal]
  rfl

/-- What the check before a write reckons with is the length after it. -/
theorem projectedLen_write (hposition : cursor.position < 2 ^ 64) (hlength : cursor.content.length ≤ MAX_LEN)
    (hfits : cursor.position + buf.length ≤ MAX_LEN) :
    projectedLen cursor (lenU64 buf.length) = UInt64.ofNat (cursor.write buf).content.length ∧
      (cursor.write buf).content.length ≤ MAX_LEN := by
  have hafter : (cursor.write buf).content.length ≤ MAX_LEN := by
    rw [Sink.write_length]
    exact max_le hfits hlength
  refine ⟨?_, hafter⟩
  unfold MAX_LEN at hfits
  apply UInt64.toNat_inj.mp
  rw [projectedLen_toNat hposition hlength, lenU64_eq, toNat_ofNat_of_le hafter, Sink.write_length]
  omega

theorem writeThrough_memory (hs : spool.Balanced view) (hinner : spool.inner = .Memory cursor)
    (hbuf : buf ≠ []) : WriteSpec view buf spool (writeThrough fs buf spool) ∧
      (cursor.position + buf.length ≤ MAX_LEN → (writeThrough fs buf spool).1 = .ok buf.length ∨
        ∃ message, (writeThrough fs buf spool).1 = .error (.limit message)) := by
  obtain ⟨hposition, hlength, hretained, _⟩ := hs.in_memory hinner
  have hprevious : spool.previousLen = some (UInt64.ofNat cursor.content.length) := by rw [previousLen, hinner]
  have hcurrent : (saturatingSub spool.budget.retainedOutput.retained
      (UInt64.ofNat cursor.content.length)).toNat = 0 := by
    rw [saturatingSub_toNat, hretained, toNat_ofNat_of_le hlength, Nat.sub_self]
  have hinto : writeInner fs buf spool =
      ((Sink.writeBuf buf cursor).1, { spool with inner := .Memory (Sink.writeBuf buf cursor).2 }) :=
    onInner_memory hinner
  rw [writeThrough, bind_of_ok (rfl : Machine.get spool = (.ok spool, spool))]
  by_cases hroom : Room (saturatingSub spool.budget.retainedOutput.retained
      (UInt64.ofNat cursor.content.length)) (projectedLen cursor (lenU64 buf.length))
      spool.budget.retainedOutput.limit
  · rw [bind_of_ok (checkRetainedMemoryWrite_ok hinner hroom)]
    by_cases hfits : cursor.position + buf.length ≤ MAX_LEN
    · -- the length that was checked is the one that is charged
      obtain ⟨hnew, hafter⟩ := projectedLen_write hposition hlength hfits
      rw [hnew] at hroom
      have hfile : chargeTemporaryFileWrite buf.length
          ({ spool with inner := .Memory (cursor.write buf) } : AutoSpool ω φ) =
            (.ok (), { spool with inner := .Memory (cursor.write buf) }) := rfl
      obtain ⟨retained, hcharge, hvalue⟩ := @chargeRetainedMemoryWrite_ok _ _
        { spool with inner := .Memory (cursor.write buf) } (UInt64.ofNat cursor.content.length) _ rfl hroom
      rw [Sink.writeBuf, if_pos hfits] at hinto
      rw [bind_of_ok hinto, bind_of_ok hfile, hprevious]
      dsimp only
      rw [bind_of_ok hcharge]
      refine ⟨⟨Nat.le_refl _, ?_⟩, fun _ => .inl rfl⟩
      rw [List.take_length]
      apply wrote_memory hs hinner hbuf hfits
      rw [hvalue, hcurrent, Nat.zero_add, toNat_ofNat_of_le hafter]
      unfold MAX_LEN at hafter
      omega
    · rw [Sink.writeBuf, if_neg hfits] at hinto
      dsimp only at hinto
      rw [← hinner] at hinto
      rw [bind_of_error hinto]
      exact ⟨⟨Kept.refl hs, nofun⟩, fun hle => absurd hle hfits⟩
  · rw [bind_of_error (checkRetainedMemoryWrite_error hinner hroom)]
    obtain ⟨hkept, hrefused⟩ := refused_retained hs hinner hcurrent hroom
    exact ⟨⟨hkept, fun _ _ => hrefused⟩, fun _ => .inr ⟨_, rfl⟩⟩

theorem Rolled.wrote {spool₁ : AutoSpool ω φ} {bytes : List UInt8} (hrolled : Rolled view buf spool spool₁)
    (h : Wrote view bytes spool₁ spool') : Wrote view bytes spool spool' := by
  obtain ⟨cursor, hinner⟩ := hrolled.from_memory
  have hstore := hrolled.kept.store_eq
  exact ⟨hstore ▸ h.fits, hstore ▸ h.store_eq, h.balanced, h.limits_eq.trans hrolled.kept.limits_eq,
    fun file hfile => absurd (hinner.symm.trans hfile) nofun⟩

theorem write_spec (hfs : fs.Faithful view) (hs : spool.Balanced view) (hbuf : buf ≠ [])
    {o : Except SpoolIoError ℕ × AutoSpool ω φ} (h : (write fs buf).EndsIn spool o) :
    WriteSpec view buf spool o := by
  have hcheck := checkTemporaryFileWrite_spec hs hbuf
  rcases hrun : checkTemporaryFileWrite buf.length spool with ⟨e | _, spool₁⟩
  · rw [hrun] at hcheck
    rw [write, Loops.once_bind_error hrun] at h
    cases h
    exact ⟨hcheck.2.1, fun _ _ => hcheck.2.2⟩
  · rw [hrun] at hcheck
    obtain ⟨rfl, hready⟩ := hcheck
    rw [write, Loops.once_bind hrun] at h
    rcases Loops.bind_endsIn h with ⟨_, spool₂, hroll, h⟩ | ⟨e, spool₂, hroll, rfl⟩
    · rw [← Loops.once_endsIn.mp h]
      -- where it is, or in the file it was just moved to
      rcases maybeRollToFile_spec hfs hs hroll with rfl | hrolled
      · cases hinner : spool₂.inner with
        | Memory cursor => exact (writeThrough_memory hs hinner hbuf).1
        | TempFile file =>
          refine (writeThrough_file hfs hs hinner hready).mono (fun _ _ hwrote => hwrote.2) ?_
          rintro e _ ⟨⟨e', _, rfl⟩, hkept⟩
          exact ⟨hkept, nofun⟩
      · obtain ⟨file, hinner⟩ := hrolled.in_file
        refine (writeThrough_file hfs hrolled.kept.balanced hinner hrolled.ready).mono ?_ ?_
        · exact fun n _ ⟨_, hn, hwrote⟩ => ⟨hn, hrolled.wrote hwrote⟩
        · rintro e _ ⟨⟨e', _, rfl⟩, hkept⟩
          exact ⟨hrolled.kept.trans hkept, nofun⟩
    · exact maybeRollToFile_spec hfs hs hroll

theorem moved_memory (hs : spool.Balanced view) (hinner : spool.inner = .Memory cursor) {cursor' : Sink}
    (hcontent : cursor'.content = cursor.content) (hposition : cursor'.position < 2 ^ 64) :
    ({ spool with inner := .Memory cursor' } : AutoSpool ω φ).Balanced view := by
  apply hs.moved
  · rw [store_memory hinner]
    exact hcontent
  · exact hposition
  · rw [held_memory hinner, ← hcontent]
    rfl
  · rw [received_memory hinner]
    rfl

theorem moved_file (hs : spool.Balanced view) (hinner : spool.inner = .TempFile file) {position : ℕ}
    (hview : view file outside = (view file spool.outside).moved position) (hposition : position < 2 ^ 64) :
    ({ spool with outside } : AutoSpool ω φ).Balanced view ∧
      ({ spool with outside } : AutoSpool ω φ).store view = (spool.store view).seek position := by
  have hinner' : ({ spool with outside } : AutoSpool ω φ).inner = .TempFile file := hinner
  have hstore : ({ spool with outside } : AutoSpool ω φ).store view = (spool.store view).seek position := by
    rw [store_file hinner', store_file hinner]
    exact congrArg FileView.store hview
  refine ⟨hs.moved ?_ ?_ rfl ?_, hstore⟩
  · rw [hstore]
    rfl
  · rw [hstore]
    exact hposition
  · apply received_outside
    intro file' hfile
    cases hinner.symm.trans hfile
    rw [hview]
    rfl

theorem read_spec (hfs : fs.Faithful view) (hs : spool.Balanced view) (n : ℕ) :
    Outcome (fun bytes spool' =>
        Sink.readBuf bytes.length (spool.store view) = (.ok bytes, spool'.store view) ∧
          spool'.Balanced view ∧ spool'.limits = spool.limits)
      (fun e spool' => Kept view spool spool' ∧ ∀ message, e ≠ .limit message) (read fs n spool) := by
  have hposition := hs.position_lt
  have hlength := hs.length_le
  -- what was read moves the position no further than the end, where it was not there already
  have hmoved : ∀ bytes, bytes <+: (spool.store view).content.drop (spool.store view).position →
      (spool.store view).position + bytes.length < 2 ^ 64 ∧
        ((spool.store view).content.drop (spool.store view).position).take bytes.length = bytes := by
    intro bytes hbytes
    have hle := hbytes.length_le
    rw [List.length_drop] at hle
    unfold MAX_LEN at hlength
    exact ⟨by omega, (List.prefix_iff_eq_take.mp hbytes).symm⟩
  cases hinner : spool.inner with
  | Memory cursor =>
    rw [read, onInner_memory hinner]
    rw [store_memory hinner] at hmoved ⊢
    obtain ⟨hlt, htake⟩ := hmoved _ (List.take_prefix n _)
    refine ⟨?_, moved_memory hs hinner rfl hlt, rfl⟩
    rw [Sink.readBuf, htake]
    rfl
  | TempFile file =>
    have hread := hfs.read file n spool.outside
    rw [read, onInner_file hinner]
    rcases hrun : fs.read file n spool.outside with ⟨e | bytes, outside⟩
    · rw [hrun] at hread
      exact ⟨Kept.in_file hs hinner hread, nofun⟩
    · rw [hrun] at hread
      obtain ⟨hfront, hview⟩ := hread
      rw [← store_file hinner] at hfront hview
      obtain ⟨hlt, htake⟩ := hmoved _ hfront
      obtain ⟨hbalanced, hstore⟩ := moved_file hs hinner hview hlt
      refine ⟨?_, hbalanced, rfl⟩
      dsimp only
      -- the cursor reads as many bytes as the file handed over
      rw [Sink.readBuf, htake, hstore]
      rfl

theorem seek_spec (hfs : fs.Faithful view) (hs : spool.Balanced view) (pos : SeekFrom) :
    Outcome (fun position spool' => Sink.seekTo pos (spool.store view) = (.ok position, spool'.store view) ∧
        spool'.Balanced view ∧ spool'.limits = spool.limits)
      (fun e spool' => Kept view spool spool' ∧ ∀ message, e ≠ .limit message) (seek fs pos spool) := by
  cases hinner : spool.inner with
  | Memory cursor =>
    rw [seek, onInner_memory hinner, store_memory hinner]
    by_cases htarget : 0 ≤ pos.target cursor ∧ pos.target cursor < 2 ^ 64
    · have hrun : Sink.seekTo pos cursor =
        (.ok (pos.target cursor).toNat, cursor.seek (pos.target cursor).toNat) := if_pos htarget
      rw [hrun]
      refine ⟨rfl, moved_memory hs hinner rfl ?_, rfl⟩
      show (pos.target cursor).toNat < _
      omega
    · have hrun : Sink.seekTo pos cursor = (.error (.file .invalidInput), cursor) := if_neg htarget
      rw [hrun]
      dsimp only
      rw [← hinner]
      exact ⟨Kept.refl hs, nofun⟩
  | TempFile file =>
    have hseek := hfs.seek file pos spool.outside
    rw [seek, onInner_file hinner]
    rcases hrun : fs.seek file pos spool.outside with ⟨e | position, outside⟩
    · rw [hrun] at hseek
      exact ⟨Kept.in_file hs hinner hseek, nofun⟩
    · rw [hrun] at hseek
      obtain ⟨htarget, hle, hview⟩ := hseek
      rw [← store_file hinner] at htarget
      have hlt : position < 2 ^ 64 := hle.trans_lt (by decide)
      obtain ⟨hbalanced, hstore⟩ := moved_file hs hinner hview hlt
      refine ⟨?_, hbalanced, rfl⟩
      rw [Sink.seekTo, htarget, if_pos ⟨by omega, by omega⟩, hstore]
      rfl

end

end AutoSpool

end Write

end R7z
