import R7z.HeaderResume
import R7z.Listing

/-! How large the collections are that a listing asks for. A collection of more than `isize::MAX`
bytes is refused with a panic, so every request is followed here, and where the count of entries
that a header declares makes one too large. -/

namespace R7z

open Wire Wire.Parser

def isizeMax : Nat := 2 ^ 63 - 1

/-- An error, or the panic of a collection that is too large for any allocation. -/
inductive Fault (ε : Type) where
  | capacityOverflow
  | error (e : ε)
deriving DecidableEq, Repr

/-- `Vec::with_capacity` of elements of a size. -/
def withCapacity {ε : Type} (capacity elementSize : Nat) : Except (Fault ε) Unit :=
  if capacity * elementSize ≤ isizeMax then .ok () else .error .capacityOverflow

def orFault {ε α : Type} (p : Parser ε α) : Parser (Fault ε) α := mapError .error p

namespace FilesInfo

/-- The size of an element of the collection a property is read into: `Option<u64>`, `Option<u32>`. -/
def elementSize : Property → Option Nat
  | .CTime | .ATime | .MTime | .StartPos => some 16
  | .Attributes => some 8
  | _ => none

def ordinalSize : Nat := 16

/-- A column of values is given its collection once its layout is known, before it is read. -/
def reserve (numValues : Nat) (backing : Slice) (externalData : List Slice)
    (block : Property × Slice) : Except (Fault NomErr) Unit :=
  match elementSize block.1 with
  | none => .ok ()
  | some size =>
    match DefinedProperty.parse block.2 numValues backing externalData with
    | .error e => .error (.error e)
    | .ok _ => withCapacity numValues size

def allocatingTurn (backing : Slice) (externalData : List Slice) (acc : FilesInfo × UInt32) :
    Parser (Fault NomErr) (Turn (FilesInfo × UInt32) FilesInfo) := do
  let tag ← orFault Property.parse
  if tag = .END then pure (.done acc.1)
  else
    let seen ← orFault (ofExcept (register acc.2 tag))
    let size ← orFault sevenzipVaruint64Decode
    let block ← orFault (takeBytes size.toNat)
    ofExcept (reserve acc.1.numFiles.toNat backing externalData (tag, block))
    let files ← orFault (ofExcept (readProperty acc.1 tag block backing externalData))
    pure (.again (files, seen))

def allocatingParse (backing : Slice) (externalData : List Slice) : Parser (Fault NomErr) FilesInfo := do
  orFault (expectProperty .FilesInfo)
  let numFiles ← orFault sevenzipVaruint64Decode
  let files ← loop (.error (.error .eof)) (allocatingTurn backing externalData) (empty numFiles, 0)
  ofExcept (withCapacity numFiles.toNat ordinalSize)
  pure { files with
         emptyStreamOrdinals := R7z.emptyStreamOrdinals files.emptyStreams numFiles.toNat }

end FilesInfo

def Header.allocatingFilesInfo (header : Header) : Except (Fault R7zError) (Option FilesInfo) :=
  match header.filesInfoRange with
  | none => .ok none
  | some range =>
    match range.get header.data with
    | none => .error (.error .parse)
    | some slice =>
      match FilesInfo.allocatingParse header.data header.externalFolderData slice with
      | .ok (files, rest) =>
        if rest.bytes.isEmpty ∧ files.numFiles = header.numFiles then .ok (some files)
        else .error (.error .parse)
      | .error .capacityOverflow => .error .capacityOverflow
      | .error (.error _) => .error (.error .parse)

/-- `listing` with the collections that the declared count of entries gives the size of. A row takes
`rowSize` bytes. -/
def Header.allocatingListing (header : Header) (rowSize : Nat) (physicalSize : Option Nat) :
    Except (Fault R7zError) ArchiveListing := do
  let streams ← header.tryStreamsInfo.mapError .error
  let total ← (packTotal streams).mapError .error
  let coders ← (archiveMethods streams).mapError .error
  let files ← header.allocatingFilesInfo
  let fileStreams ← (FileStreams.new files header.numFiles.toNat streams).mapError .error
  withCapacity header.numFiles.toNat rowSize
  let listed : ListedArchive :=
    { streams, packTotal := total, methods := archiveMethodNames coders.flatten, files, fileStreams }
  let entries ← listed.rows.mapError .error
  return listed.listing physicalSize entries

/-! A run that asks for nothing too large is the run of the parser -/

/-- `p` panics, or does what `q` does. -/
def Unless {ε α : Type} (p : Parser (Fault ε) α) (q : Parser ε α) : Prop :=
  ∀ s, p s = .error .capacityOverflow ∨ p s = orFault q s

section
variable {ε α β σ τ : Type}

theorem orFault_ok {p : Parser ε α} {s : Slice} {v : α × Slice} (h : p s = .ok v) :
    orFault p s = .ok v := mapError_eq_ok.mpr h

theorem orFault_error {p : Parser ε α} {s : Slice} {e : ε} (h : p s = .error e) :
    orFault p s = .error (.error e) := by
  rw [orFault, mapError, h]

theorem Unless.orFault (p : Parser ε α) : Unless (orFault p) p := fun _ => .inr rfl

theorem Unless.pure (v : α) : Unless (pure v : Parser (Fault ε) α) (pure v) := fun _ => .inr rfl

theorem Unless.bind {p : Parser (Fault ε) α} {q : Parser ε α} {f : α → Parser (Fault ε) β}
    {g : α → Parser ε β} (hp : Unless p q) (hf : ∀ v, Unless (f v) (g v)) :
    Unless (p >>= f) (q >>= g) := by
  intro s
  rcases hp s with h | h
  · exact .inl (bind_of_error h)
  · cases hq : q s with
    | error e =>
      rw [orFault_error hq] at h
      rw [bind_of_error h, orFault_error (bind_of_error hq)]
      exact .inr rfl
    | ok v =>
      obtain ⟨v, r⟩ := v
      rw [orFault_ok hq] at h
      rw [bind_of_ok h]
      have hq' : R7z.orFault (q >>= g) s = R7z.orFault (g v) r := by
        rw [R7z.orFault, mapError, bind_of_ok hq]
        rfl
      rw [hq']
      exact hf v r

theorem Unless.request {x : Except (Fault ε) Unit} {p : Parser (Fault ε) β} {q : Parser ε β}
    (hx : x = .error .capacityOverflow ∨ x = .ok () ∨
      ∃ e, x = .error (.error e) ∧ ∀ s, q s = .error e)
    (hp : Unless p q) : Unless (do ofExcept x; p) q := by
  intro s
  rcases hx with h | h | ⟨e, h, hq⟩
  · rw [h]
    exact .inl rfl
  · rw [h]
    exact hp s
  · rw [h, orFault_error (hq s)]
    exact .inr rfl

theorem Unless.loop {eof : ε} {step : σ → Parser (Fault ε) (Turn σ τ)}
    {step' : σ → Parser ε (Turn σ τ)} (h : ∀ acc, Unless (step acc) (step' acc)) (acc : σ) :
    Unless (Parser.loop (.error eof) step acc) (Parser.loop eof step' acc) := by
  have key : ∀ n acc, Unless (Parser.loopFuel (.error eof) step n acc)
      (Parser.loopFuel eof step' n acc) := by
    intro n
    induction n with
    | zero => exact fun acc s => .inr rfl
    | succ n ih =>
      intro acc
      refine (h acc).bind fun turn => ?_
      cases turn with
      | again acc => exact ih acc
      | done v => exact .pure v
  exact fun s => key s.bytes.length acc s

end

namespace FilesInfo

variable {backing : Slice} {externalData : List Slice}

theorem readProperty_of_reserve {files : FilesInfo} {block : Property × Slice} {e : NomErr}
    (h : reserve files.numFiles.toNat backing externalData block = .error (.error e)) :
    readProperty files block.1 block.2 backing externalData = .error e := by
  obtain ⟨tag, block⟩ := block
  unfold reserve at h
  cases tag <;> simp only [elementSize] at h <;> first | cases h | skip
  all_goals
    split at h
    · next e' hparse =>
      cases h
      rw [readProperty, hparse]
      rfl
    · rw [withCapacity] at h
      split at h <;> cases h

theorem reserve_cases (numValues : ℕ) (block : Property × Slice) :
    reserve numValues backing externalData block = .error .capacityOverflow ∨
    reserve numValues backing externalData block = .ok () ∨
    ∃ e, reserve numValues backing externalData block = .error (.error e) := by
  cases reserve numValues backing externalData block with
  | ok => exact .inr (.inl rfl)
  | error fault =>
    cases fault with
    | capacityOverflow => exact .inl rfl
    | error e => exact .inr (.inr ⟨e, rfl⟩)

theorem allocatingTurn_unless (acc : FilesInfo × UInt32) :
    Unless (allocatingTurn backing externalData acc) (turn backing externalData acc) := by
  refine (Unless.orFault _).bind fun tag => ?_
  split
  · exact .pure _
  · refine (Unless.orFault _).bind fun seen => (Unless.orFault _).bind fun size =>
      (Unless.orFault _).bind fun block => ?_
    refine Unless.request ?_ ((Unless.orFault _).bind fun files => .pure _)
    rcases @reserve_cases backing externalData acc.1.numFiles.toNat (tag, block) with h | h | ⟨e, h⟩
    · exact .inl h
    · exact .inr (.inl h)
    · refine .inr (.inr ⟨e, h, fun s => ?_⟩)
      rw [readProperty_of_reserve h]
      rfl

theorem allocatingParse_unless (backing : Slice) (externalData : List Slice) :
    Unless (allocatingParse backing externalData) (parseWithExternal backing externalData) := by
  refine (Unless.orFault _).bind fun _ => (Unless.orFault _).bind fun numFiles =>
    (Unless.loop allocatingTurn_unless _).bind fun files => ?_
  refine Unless.request ?_ (.pure _)
  rw [withCapacity]
  split
  · exact .inr (.inl rfl)
  · exact .inl rfl

/-! A section as its blocks -/

/-- `s` begins with these property blocks and the end marker, and `r` is what is left of it. -/
inductive Blocks : Slice → List (Property × Slice) → Slice → Prop where
  | done {s r : Slice} : Property.parse s = .ok (.END, r) → Blocks s [] r
  | more {s s₁ s₂ s₃ r : Slice} {tag : Property} {size : UInt64} {block : Slice}
      {blocks : List (Property × Slice)} : Property.parse s = .ok (tag, s₁) → tag ≠ .END →
      sevenzipVaruint64Decode s₁ = .ok (size, s₂) → takeBytes size.toNat s₂ = .ok (block, s₃) →
      Blocks s₃ blocks r → Blocks s ((tag, block) :: blocks) r

/-- The section at `s` declares `numFiles` entries, and its blocks follow. -/
def Section (s : Slice) (numFiles : UInt64) (blocks : List (Property × Slice)) (r : Slice) : Prop :=
  ∃ s₁ s₂, expectProperty .FilesInfo s = .ok ((), s₁) ∧
    sevenzipVaruint64Decode s₁ = .ok (numFiles, s₂) ∧ Blocks s₂ blocks r

theorem blocks_of_scan {n : ℕ} : ∀ {fuel : ℕ} {uses : Bool} {s r : Slice} {v : Bool},
    Parser.loopFuel (.error .eof) (scanFilesTurn n) fuel uses s = .ok (v, r) →
      ∃ blocks, Blocks s blocks r
  | 0, _, _, _, _, h => by cases h
  | fuel + 1, uses, s, r, v, h => by
    obtain ⟨turn, t, hturn, h⟩ := bind_eq_ok.mp h
    obtain ⟨tag, s₁, htag, hturn⟩ := bind_eq_ok.mp hturn
    by_cases hend : tag = .END
    · rw [if_pos hend] at hturn
      cases hturn
      cases h
      rw [hend] at htag
      exact ⟨[], .done htag⟩
    · rw [if_neg hend] at hturn
      obtain ⟨size, s₂, hsize, hturn⟩ := bind_eq_ok.mp hturn
      obtain ⟨block, s₃, hblock, hturn⟩ := bind_eq_ok.mp hturn
      cases hturn
      obtain ⟨blocks, hblocks⟩ := blocks_of_scan h
      exact ⟨_, .more htag hend hsize hblock hblocks⟩

theorem section_of_scan {s r : Slice} {numFiles : UInt64} {uses : Bool}
    (h : scanFilesInfoWithExternal s = .ok ((numFiles, uses), r)) :
    ∃ blocks, Section s numFiles blocks r := by
  obtain ⟨_, s₁, h1, h⟩ := bind_eq_ok.mp h
  obtain ⟨count, s₂, h2, h⟩ := bind_eq_ok.mp h
  obtain ⟨uses', s₃, h3, h⟩ := bind_eq_ok.mp h
  cases h
  obtain ⟨blocks, hblocks⟩ := blocks_of_scan h3
  exact ⟨blocks, s₁, s₂, h1, h2, hblocks⟩

def accept (backing : Slice) (externalData : List Slice) (acc : FilesInfo × UInt32)
    (block : Property × Slice) : Except NomErr (FilesInfo × UInt32) := do
  let seen ← register acc.2 block.1
  let files ← readProperty acc.1 block.1 block.2 backing externalData
  return (files, seen)

def asks (numValues : Nat) (backing : Slice) (externalData : List Slice)
    (block : Property × Slice) : Nat :=
  match elementSize block.1, DefinedProperty.parse block.2 numValues backing externalData with
  | some size, .ok _ => numValues * size
  | _, _ => 0

/-- A block is refused (it is repeated, or malformed), and none up to there asked for too much. -/
def RefusedEarly (backing : Slice) (externalData : List Slice) (acc : FilesInfo × UInt32)
    (blocks : List (Property × Slice)) : Prop :=
  let n := acc.1.numFiles.toNat
  ∃ front last rest, blocks = front ++ last :: rest ∧
    (∀ block ∈ front, asks n backing externalData block ≤ isizeMax) ∧
    ∃ acc' e, front.foldlM (accept backing externalData) acc = .ok acc' ∧
      accept backing externalData acc' last = .error e ∧
      ((∃ seen, register acc'.2 last.1 = .ok seen) → asks n backing externalData last ≤ isizeMax)

def allocatingAccept (backing : Slice) (externalData : List Slice) (acc : FilesInfo × UInt32)
    (block : Property × Slice) : Except (Fault NomErr) (FilesInfo × UInt32) := do
  let seen ← (register acc.2 block.1).mapError .error
  reserve acc.1.numFiles.toNat backing externalData block
  let files ← (readProperty acc.1 block.1 block.2 backing externalData).mapError .error
  return (files, seen)

theorem reserve_overflow_iff {n : ℕ} {block : Property × Slice} :
    reserve n backing externalData block = .error .capacityOverflow ↔
      isizeMax < asks n backing externalData block := by
  unfold reserve asks
  cases elementSize block.1 with
  | none => simp
  | some size =>
    cases DefinedProperty.parse block.2 n backing externalData with
    | error e => simp
    | ok property =>
      dsimp only
      rw [withCapacity]
      split <;> simp <;> omega

theorem allocatingTurn_block {s s₁ s₂ s₃ : Slice} {tag : Property} {size : UInt64} {block : Slice}
    (acc : FilesInfo × UInt32) (htag : Property.parse s = .ok (tag, s₁)) (hend : tag ≠ .END)
    (hsize : sevenzipVaruint64Decode s₁ = .ok (size, s₂))
    (hblock : takeBytes size.toNat s₂ = .ok (block, s₃)) :
    allocatingTurn backing externalData acc s =
      (allocatingAccept backing externalData acc (tag, block)).map fun acc => (.again acc, s₃) := by
  rw [allocatingTurn, bind_of_ok (orFault_ok htag), if_neg hend, allocatingAccept]
  cases hseen : register acc.2 tag with
  | error e => rfl
  | ok seen =>
    show (orFault sevenzipVaruint64Decode >>= _) s₁ = _
    rw [bind_of_ok (orFault_ok hsize), bind_of_ok (orFault_ok hblock)]
    cases reserve acc.1.numFiles.toNat backing externalData (tag, block) with
    | error fault => rfl
    | ok _ =>
      cases readProperty acc.1 tag block backing externalData with
      | error e => rfl
      | ok files => rfl

/-- A loop over a section whose turns each take a block is the fold of its blocks. -/
theorem loopFuel_fold {ε σ τ : Type} {eof : ε} {step : σ → Parser ε (Turn σ τ)}
    {take : σ → Property × Slice → Except ε σ} {value : σ → τ}
    (hdone : ∀ acc s r, Property.parse s = .ok (.END, r) → step acc s = .ok (.done (value acc), r))
    (hmore : ∀ acc s s₁ s₂ s₃ tag size block, Property.parse s = .ok (tag, s₁) → tag ≠ .END →
      sevenzipVaruint64Decode s₁ = .ok (size, s₂) → takeBytes size.toNat s₂ = .ok (block, s₃) →
      step acc s = (take acc (tag, block)).map fun acc => (.again acc, s₃))
    {s r : Slice} {blocks : List (Property × Slice)} (h : Blocks s blocks r) :
    ∀ {fuel : ℕ} (acc : σ), s.bytes.length ≤ fuel →
      Parser.loopFuel eof step fuel acc s = (blocks.foldlM take acc).map fun acc => (value acc, r) := by
  induction h with
  | @done s r htag =>
    intro fuel acc hfuel
    have := Property.parse_progresses s _ r htag
    obtain ⟨fuel, rfl⟩ : ∃ k, fuel = k + 1 := ⟨fuel - 1, by omega⟩
    rw [Parser.loopFuel, bind_of_ok (hdone acc s r htag)]
    rfl
  | @more s s₁ s₂ s₃ r tag size block blocks htag hend hsize hblock _ ih =>
    intro fuel acc hfuel
    have h1 := Property.parse_progresses s _ s₁ htag
    have h2 := sevenzipVaruint64Decode_progresses s₁ _ s₂ hsize
    have h3 : s₃.bytes.length ≤ s₂.bytes.length := by
      obtain ⟨_, _, he⟩ := take_eq_ok.mp hblock
      rw [he.1, List.length_append]
      omega
    obtain ⟨fuel, rfl⟩ : ∃ k, fuel = k + 1 := ⟨fuel - 1, by omega⟩
    rw [Parser.loopFuel, bind_apply, hmore acc s s₁ s₂ s₃ tag size block htag hend hsize hblock,
      List.foldlM_cons]
    cases take acc (tag, block) with
    | error fault => rfl
    | ok acc' => exact ih acc' (by omega)

theorem loopFuel_blocks {s r : Slice} {blocks : List (Property × Slice)} (h : Blocks s blocks r)
    {fuel : ℕ} (acc : FilesInfo × UInt32) (hfuel : s.bytes.length ≤ fuel) :
    Parser.loopFuel (.error (.error .eof)) (allocatingTurn backing externalData) fuel acc s =
      (blocks.foldlM (allocatingAccept backing externalData) acc).map fun acc => (acc.1, r) := by
  refine loopFuel_fold (fun acc s r htag => ?_) (fun acc s s₁ s₂ s₃ tag size block htag hend hsize hblock =>
    allocatingTurn_block acc htag hend hsize hblock) h acc hfuel
  rw [allocatingTurn, bind_of_ok (orFault_ok htag)]
  rfl

def requests (numFiles : UInt64) (backing : Slice) (externalData : List Slice)
    (acc : FilesInfo × UInt32) (blocks : List (Property × Slice)) : Except (Fault NomErr) Unit := do
  let _ ← blocks.foldlM (allocatingAccept backing externalData) acc
  withCapacity numFiles.toNat ordinalSize

theorem allocatingParse_section {s r : Slice} {numFiles : UInt64} {blocks : List (Property × Slice)}
    (h : Section s numFiles blocks r) :
    allocatingParse backing externalData s = .error .capacityOverflow ↔
      requests numFiles backing externalData (empty numFiles, 0) blocks =
        .error .capacityOverflow := by
  rw [requests]
  obtain ⟨s₁, s₂, h1, h2, hblocks⟩ := h
  have hloop : loop (.error (.error .eof)) (allocatingTurn backing externalData) (empty numFiles, 0) s₂ =
      (blocks.foldlM (allocatingAccept backing externalData) (empty numFiles, 0)).map
        fun acc => (acc.1, r) := loopFuel_blocks hblocks _ le_rfl
  rw [allocatingParse, bind_of_ok (orFault_ok h1), bind_of_ok (orFault_ok h2)]
  cases hfold : blocks.foldlM (allocatingAccept backing externalData) (empty numFiles, 0) with
  | error fault =>
    rw [hfold] at hloop
    rw [bind_of_error hloop]
    show _ ↔ (Except.error fault : Except (Fault NomErr) Unit) = _
    simp
  | ok acc =>
    rw [hfold] at hloop
    rw [bind_of_ok hloop]
    show _ ↔ withCapacity numFiles.toNat ordinalSize = _
    rw [withCapacity]
    split
    · constructor <;> intro h <;> cases h
    · exact iff_of_true rfl rfl

theorem accept_eq_ok {acc acc' : FilesInfo × UInt32} {block : Property × Slice} :
    accept backing externalData acc block = .ok acc' ↔ register acc.2 block.1 = .ok acc'.2 ∧
      readProperty acc.1 block.1 block.2 backing externalData = .ok acc'.1 := by
  rw [accept, except_bind_eq_ok]
  constructor
  · rintro ⟨seen, hseen, h⟩
    obtain ⟨files, hfiles, h⟩ := except_bind_eq_ok.mp h
    cases h
    exact ⟨hseen, hfiles⟩
  · rintro ⟨hseen, hfiles⟩
    exact ⟨_, hseen, except_bind_eq_ok.mpr ⟨_, hfiles, rfl⟩⟩

theorem readProperty_numFiles {files files' : FilesInfo} {tag : Property} {block : Slice}
    (h : readProperty files tag block backing externalData = .ok files') :
    files'.numFiles = files.numFiles := by
  cases tag with
  | Name | CTime | ATime | MTime | StartPos | Attributes =>
    obtain ⟨_, _, h⟩ := except_bind_eq_ok.mp h
    obtain ⟨_, _, h⟩ := except_bind_eq_ok.mp h
    cases h
    rfl
  | EmptyStream | EmptyFile | Anti =>
    obtain ⟨_, _, h⟩ := except_bind_eq_ok.mp h
    cases h
    rfl
  | _ =>
    cases h
    rfl

theorem accept_numFiles {acc acc' : FilesInfo × UInt32} {block : Property × Slice}
    (h : accept backing externalData acc block = .ok acc') : acc'.1.numFiles = acc.1.numFiles :=
  readProperty_numFiles (accept_eq_ok.mp h).2

theorem refusedEarly_cons {acc : FilesInfo × UInt32} {block : Property × Slice}
    {blocks : List (Property × Slice)} :
    RefusedEarly backing externalData acc (block :: blocks) ↔
      (∃ e, accept backing externalData acc block = .error e ∧
        ((∃ seen, register acc.2 block.1 = .ok seen) →
          asks acc.1.numFiles.toNat backing externalData block ≤ isizeMax)) ∨
      ∃ acc', accept backing externalData acc block = .ok acc' ∧
        asks acc.1.numFiles.toNat backing externalData block ≤ isizeMax ∧
        RefusedEarly backing externalData acc' blocks := by
  constructor
  · rintro ⟨front, last, rest, hblocks, hasks, acc', e, hfold, hrefused, hlast⟩
    cases front with
    | nil =>
      cases hblocks
      cases hfold
      exact .inl ⟨e, hrefused, hlast⟩
    | cons first front =>
      cases hblocks
      obtain ⟨acc₁, hfirst, hfold⟩ := except_bind_eq_ok.mp hfold
      have hn := accept_numFiles hfirst
      refine .inr ⟨acc₁, hfirst, hasks _ List.mem_cons_self, front, last, rest, rfl, ?_, acc', e,
        hfold, hrefused, ?_⟩
      · intro b hb
        rw [hn]
        exact hasks b (List.mem_cons_of_mem _ hb)
      · rw [hn]
        exact hlast
  · rintro (⟨e, hrefused, hlast⟩ | ⟨acc₁, hfirst, hask, front, last, rest, rfl, hasks, acc', e, hfold,
      hrefused, hlast⟩)
    · exact ⟨[], block, blocks, rfl, by simp, acc, e, rfl, hrefused, hlast⟩
    · have hn := accept_numFiles hfirst
      rw [hn] at hasks hlast
      refine ⟨block :: front, last, rest, rfl, ?_, acc', e, ?_, hrefused, hlast⟩
      · intro b hb
        rcases List.mem_cons.mp hb with rfl | hb
        · exact hask
        · exact hasks b hb
      · exact except_bind_eq_ok.mpr ⟨acc₁, hfirst, hfold⟩

theorem asks_le (n : ℕ) (block : Property × Slice) :
    asks n backing externalData block ≤ n * ordinalSize := by
  unfold asks
  split
  · next size _ hsize _ =>
    have hsize : size ≤ ordinalSize := by
      obtain ⟨tag, block⟩ := block
      cases tag <;> cases hsize <;> decide
    exact Nat.mul_le_mul_left n hsize
  · exact Nat.zero_le _

theorem requests_cons {numFiles : UInt64} {acc : FilesInfo × UInt32} {block : Property × Slice}
    {blocks : List (Property × Slice)} :
    requests numFiles backing externalData acc (block :: blocks) =
      (allocatingAccept backing externalData acc block >>= fun acc =>
        requests numFiles backing externalData acc blocks) := by
  rw [requests, List.foldlM_cons]
  cases allocatingAccept backing externalData acc block <;> rfl

theorem allocatingAccept_overflow_iff {acc : FilesInfo × UInt32} {block : Property × Slice} :
    allocatingAccept backing externalData acc block = .error .capacityOverflow ↔
      (∃ seen, register acc.2 block.1 = .ok seen) ∧
        isizeMax < asks acc.1.numFiles.toNat backing externalData block := by
  rw [← reserve_overflow_iff, allocatingAccept]
  cases register acc.2 block.1 with
  | error e => simp [Except.mapError, Bind.bind, Except.bind]
  | ok seen =>
    cases reserve acc.1.numFiles.toNat backing externalData block with
    | error fault => simp [Except.mapError, Bind.bind, Except.bind]
    | ok _ =>
      cases readProperty acc.1 block.1 block.2 backing externalData <;>
        simp [Except.mapError, Bind.bind, Except.bind, Pure.pure, Except.pure]

theorem allocatingAccept_eq {acc : FilesInfo × UInt32} {block : Property × Slice}
    (h : allocatingAccept backing externalData acc block ≠ .error .capacityOverflow) :
    allocatingAccept backing externalData acc block =
      (accept backing externalData acc block).mapError .error := by
  unfold allocatingAccept at h ⊢
  rw [accept]
  cases hseen : register acc.2 block.1 with
  | error e => rfl
  | ok seen =>
    rw [hseen] at h
    rcases @reserve_cases backing externalData acc.1.numFiles.toNat block with hr | hr | ⟨e, hr⟩
    · rw [hr] at h
      exact (h rfl).elim
    · rw [hr]
      cases readProperty acc.1 block.1 block.2 backing externalData <;> rfl
    · rw [hr, readProperty_of_reserve hr]
      rfl

theorem requests_overflow_iff {numFiles : UInt64}
    (hn : isizeMax < numFiles.toNat * ordinalSize) :
    ∀ {blocks : List (Property × Slice)} {acc : FilesInfo × UInt32}, acc.1.numFiles = numFiles →
      (requests numFiles backing externalData acc blocks = .error .capacityOverflow ↔
        ¬RefusedEarly backing externalData acc blocks)
  | [], acc, _ => by
    have hrefused : ¬RefusedEarly backing externalData acc [] := by
      rintro ⟨front, last, rest, h, _⟩
      simp at h
    refine iff_of_true ?_ hrefused
    show withCapacity numFiles.toNat ordinalSize = _
    rw [withCapacity, if_neg (by omega)]
  | block :: blocks, acc, hacc => by
    rw [requests_cons, refusedEarly_cons]
    by_cases hover : allocatingAccept backing externalData acc block = .error .capacityOverflow
    · have ⟨hseen, hask⟩ := allocatingAccept_overflow_iff.mp hover
      rw [hover]
      refine iff_of_true rfl ?_
      rintro (⟨e, _, h⟩ | ⟨acc', _, h, _⟩)
      · exact absurd (h hseen) (by omega)
      · omega
    · have hask : (∃ seen, register acc.2 block.1 = .ok seen) →
          asks acc.1.numFiles.toNat backing externalData block ≤ isizeMax := fun hseen => by
        by_contra hlt
        exact hover (allocatingAccept_overflow_iff.mpr ⟨hseen, by omega⟩)
      rw [allocatingAccept_eq hover]
      cases haccept : accept backing externalData acc block with
      | error e =>
        refine iff_of_false (fun h => by cases h) (fun h => h (.inl ⟨e, rfl, hask⟩))
      | ok acc' =>
        show requests numFiles backing externalData acc' blocks = _ ↔ _
        rw [requests_overflow_iff hn ((accept_numFiles haccept).trans hacc)]
        refine not_congr ⟨fun h => .inr ⟨acc', rfl, hask ⟨_, (accept_eq_ok.mp haccept).1⟩, h⟩, ?_⟩
        rintro (⟨e, h, _⟩ | ⟨acc'', h, _, hrest⟩)
        · cases h
        · cases h
          exact hrest

theorem requests_fit {numFiles : UInt64} (hn : numFiles.toNat * ordinalSize ≤ isizeMax) :
    ∀ {blocks : List (Property × Slice)} {acc : FilesInfo × UInt32}, acc.1.numFiles = numFiles →
      requests numFiles backing externalData acc blocks ≠ .error .capacityOverflow
  | [], acc, _ => by
    show withCapacity numFiles.toNat ordinalSize ≠ _
    rw [withCapacity, if_pos hn]
    intro h
    cases h
  | block :: blocks, acc, hacc => by
    have hfits : allocatingAccept backing externalData acc block ≠ .error .capacityOverflow := by
      intro h
      have := (allocatingAccept_overflow_iff.mp h).2
      have := @asks_le backing externalData acc.1.numFiles.toNat block
      rw [hacc] at *
      omega
    rw [requests_cons, allocatingAccept_eq hfits]
    cases haccept : accept backing externalData acc block with
    | error e =>
      intro h
      cases h
    | ok acc' => exact requests_fit hn ((accept_numFiles haccept).trans hacc)

/-- A section asks for too much exactly when it declares too many entries and is not refused first. -/
theorem allocatingParse_overflow_iff {s r : Slice} {numFiles : UInt64}
    {blocks : List (Property × Slice)} (h : Section s numFiles blocks r) :
    allocatingParse backing externalData s = .error .capacityOverflow ↔
      isizeMax < numFiles.toNat * ordinalSize ∧
        ¬RefusedEarly backing externalData (empty numFiles, 0) blocks := by
  rw [allocatingParse_section h]
  by_cases hn : isizeMax < numFiles.toNat * ordinalSize
  · rw [and_iff_right hn]
    exact requests_overflow_iff hn rfl
  · exact iff_of_false (requests_fit (by omega) rfl) fun h => hn h.1

end FilesInfo

/-! The file section the scan kept -/

def FilesScanned (data : Slice) (filesInfoRange : Option Range) (numFiles : UInt64) : Prop :=
  ∀ range, filesInfoRange = some range →
    ∃ slice blocks r, range.get data = some slice ∧ FilesInfo.Section slice numFiles blocks r

namespace HeaderScan

variable {data : Slice} {external : Option (List Slice)}

def TurnFiles (data : Slice) : Turn HeaderScan HeaderProgress → Prop
  | .again next => FilesScanned data next.filesInfoRange next.numFiles
  | .done (.complete header _) => FilesScanned data header.filesInfoRange header.numFiles
  | .done (.pending p) => FilesScanned data p.scan.filesInfoRange p.scan.numFiles

def YieldsFiles (data : Slice) (p : Parser R7zError (Turn HeaderScan HeaderProgress)) : Prop :=
  ∀ s t r, p s = .ok (t, r) → TurnFiles data t

theorem YieldsFiles.bind {α : Type} {p : Parser R7zError α}
    {f : α → Parser R7zError (Turn HeaderScan HeaderProgress)} (hf : ∀ v, YieldsFiles data (f v)) :
    YieldsFiles data (p >>= f) := by
  intro s t r h
  obtain ⟨v, s', _, h⟩ := bind_eq_ok.mp h
  exact hf v s' t r h

theorem YieldsFiles.moveOn {scan : HeaderScan}
    (h : FilesScanned data scan.filesInfoRange scan.numFiles) : YieldsFiles data scan.moveOn := by
  intro s t r ht
  cases ht
  exact h

theorem YieldsFiles.suspend {scan : HeaderScan}
    (h : FilesScanned data scan.filesInfoRange scan.numFiles) : YieldsFiles data (do
      let pending ← Parser.ofExcept scan.suspend
      pure (.done (.pending pending))) := by
  intro s t r ht
  obtain ⟨pending, s', h1, ht⟩ := bind_eq_ok.mp ht
  cases ht
  show FilesScanned data pending.scan.filesInfoRange pending.scan.numFiles
  rw [suspend_scan (ofExcept_eq_ok.mp h1).1]
  exact h

theorem filesScanned_of_scan {scan : HeaderScan} {s r : Slice} {pre : List UInt8} {start stop : UInt32}
    {count : UInt64} {uses : Bool} (hs : scan.data.After pre s)
    (hscan : scanFilesInfoWithExternal s = .ok ((count, uses), r))
    (hstart : scan.offsetOf s = .ok start) (hstop : scan.offsetOf r = .ok stop) :
    FilesScanned scan.data (some ⟨start, stop⟩) count := by
  rintro range ⟨⟩
  obtain ⟨e, he, hread⟩ := scanFilesInfo_scans.reads hscan
  have hr := hs.trans he
  have hn := offsetOf_ok hs hstart
  have hm := offsetOf_ok hr hstop
  rw [List.length_append] at hm
  have hdata : scan.data.bytes = pre ++ e ++ r.bytes := hr.1
  have hsection := hread []
  rw [List.append_nil] at hsection
  obtain ⟨blocks, hblocks⟩ := FilesInfo.section_of_scan hsection
  refine ⟨⟨s.addr, e⟩, blocks, _, ?_, hblocks⟩
  have hle : start.toNat ≤ stop.toNat ∧ stop.toNat ≤ scan.data.bytes.length := by
    rw [hdata, List.length_append, List.length_append]
    omega
  rw [Range.get, if_pos hle, hn, hm, hdata, hs.2]
  simp

theorem turn_files {scan : HeaderScan} {s r : Slice} {t : Turn HeaderScan HeaderProgress}
    (hdata : scan.data = data) (hs : ∃ pre, data.After pre s)
    (hinv : FilesScanned data scan.filesInfoRange scan.numFiles)
    (h : scan.turn external s = .ok (t, r)) : TurnFiles data t := by
  obtain ⟨tag, s', htag, h⟩ := bind_eq_ok.mp h
  have hs' : s' = s := (peek_eq_ok.mp (orParse_eq_ok.mp htag)).1
  rw [hs'] at h
  cases tag with
  | END =>
    obtain ⟨_, _, _, h⟩ := bind_eq_ok.mp h
    obtain ⟨_, _, _, h⟩ := bind_eq_ok.mp h
    cases h
    exact hinv
  | MainStreamsInfo =>
    refine YieldsFiles.bind (fun _ => YieldsFiles.bind fun waits => ?_) s t r h
    cases waits with
    | true => exact .suspend hinv
    | false => exact .bind fun _ => .moveOn hinv
  | AdditionalStreamsInfo =>
    refine YieldsFiles.bind (fun _ => YieldsFiles.bind fun _ => ?_) s t r h
    exact .moveOn hinv
  | ArchiveProperties => exact YieldsFiles.bind (fun _ => .bind fun _ => .moveOn hinv) s t r h
  | FilesInfo =>
    obtain ⟨here, s₁, h1, h⟩ := bind_eq_ok.mp h
    cases h1
    obtain ⟨⟨count, uses⟩, s₁, hscan, h⟩ := bind_eq_ok.mp h
    dsimp only at h
    split at h
    · exact YieldsFiles.suspend hinv _ t r h
    · obtain ⟨_, s₂, h2, h₂⟩ := bind_eq_ok.mp h
      cases h2
      obtain ⟨start, s₃, h3, h₃⟩ := bind_eq_ok.mp h₂
      obtain ⟨hstart, rfl⟩ := ofExcept_eq_ok.mp h3
      obtain ⟨stop, s₄, h4, h₄⟩ := bind_eq_ok.mp h₃
      obtain ⟨hstop, rfl⟩ := ofExcept_eq_ok.mp h4
      obtain ⟨pre, hs⟩ := hs
      refine YieldsFiles.moveOn ?_ _ t r h₄
      rw [← hdata] at hs ⊢
      exact filesScanned_of_scan hs (orParse_eq_ok.mp hscan) hstart hstop
  | _ => exact YieldsFiles.bind (fun _ => .bind fun _ => .moveOn hinv) s t r h

structure FilesInv (data : Slice) (scan : HeaderScan) : Prop where
  streams : ScanInv (fun _ => True) data scan
  files : FilesScanned data scan.filesInfoRange scan.numFiles

theorem advance_files {scan : HeaderScan} {progress : HeaderProgress} (hinv : FilesInv data scan)
    (h : scan.advance external = .ok progress) :
    TurnFiles data (.done progress) ∧ ProgressInv (fun _ => True) data external progress := by
  refine ⟨?_, advance_ok trivial hinv.streams h⟩
  unfold advance at h
  split at h
  · next hle =>
    obtain ⟨⟨progress', r⟩, hloop, h⟩ := except_bind_eq_ok.mp h
    cases h
    have hs : data.After (data.bytes.take scan.position)
        ⟨scan.data.addr + scan.position, scan.data.bytes.drop scan.position⟩ := by
      rw [hinv.streams.data_eq] at hle ⊢
      exact ⟨(List.take_append_drop ..).symm, by rw [List.length_take, Nat.min_eq_left hle]⟩
    refine loop_ok (P := fun scan s => FilesInv data scan ∧ ∃ pre, data.After pre s)
      (Q := fun progress _ => TurnFiles data (.done progress)) ?_ ?_ ⟨hinv, _, hs⟩ hloop
    · rintro scan scan' s r ⟨hinv, hs⟩ h
      obtain ⟨hstreams, hr⟩ := turn_ok trivial hinv.streams hs h
      exact ⟨⟨hstreams, turn_files hinv.streams.data_eq hs hinv.files h⟩, hr⟩
    · rintro scan progress s r ⟨hinv, hs⟩ h
      exact turn_files hinv.streams.data_eq hs hinv.files h
  · cases h

end HeaderScan

theorem accepted_files {backing : Slice} {header : Header} (h : Accepted backing header) :
    FilesScanned header.data header.filesInfoRange header.numFiles := by
  have hscan : ∃ scan external, header = HeaderScan.header scan external ∧
      HeaderScan.FilesInv backing scan := by
    refine accepted_induct (I := fun _ scan => HeaderScan.FilesInv backing scan)
      ?_ (fun _ _ h => h) ?_ ?_ h
    · intro external scan hnew
      refine ⟨HeaderScan.new_inv hnew, ?_⟩
      unfold HeaderScan.new at hnew
      obtain ⟨⟨tag, remaining⟩, _, hnew⟩ := except_bind_eq_ok.mp hnew
      dsimp only at hnew
      split at hnew
      · cases hnew
        rintro range ⟨⟩
      · cases hnew
    · intro scan pending hinv hadv
      have ⟨hfiles, hstreams⟩ := HeaderScan.advance_files hinv hadv
      exact ⟨hstreams, hfiles⟩
    · intro external scan header consumed hinv hadv
      obtain ⟨hfiles, scan', hstreams, rfl⟩ := HeaderScan.advance_files hinv hadv
      exact ⟨scan', rfl, hstreams, hfiles⟩
  obtain ⟨scan, external, rfl, hinv⟩ := hscan
  show FilesScanned scan.data scan.filesInfoRange scan.numFiles
  rw [hinv.streams.data_eq]
  exact hinv.files

/-! The listing -/

def Header.Lists (header : Header) : Prop := ∃ listed, header.listed = .ok listed

/-- The declared count of entries gives no collection a size past `isize::MAX`: it is small enough for
the columns and ordinals of the file section, or the section is refused before they are asked for;
and it is small enough for the rows of a listing that gets that far. -/
def Header.CollectionsFit (header : Header) (rowSize : ℕ) : Prop :=
  (∀ range slice blocks r, header.filesInfoRange = some range → range.get header.data = some slice →
    FilesInfo.Section slice header.numFiles blocks r →
    header.numFiles.toNat * FilesInfo.ordinalSize ≤ isizeMax ∨
      FilesInfo.RefusedEarly header.data header.externalFolderData (.empty header.numFiles, 0) blocks) ∧
  (header.numFiles.toNat * rowSize ≤ isizeMax ∨ ¬header.Lists)

theorem Header.allocatingFilesInfo_fits_iff {backing : Slice} {header : Header}
    (h : Accepted backing header) :
    header.allocatingFilesInfo ≠ .error .capacityOverflow ↔
      ∀ range slice blocks r, header.filesInfoRange = some range →
        range.get header.data = some slice → FilesInfo.Section slice header.numFiles blocks r →
        header.numFiles.toNat * FilesInfo.ordinalSize ≤ isizeMax ∨
          FilesInfo.RefusedEarly header.data header.externalFolderData (.empty header.numFiles, 0)
            blocks := by
  have hfiles := accepted_files h
  unfold allocatingFilesInfo
  cases hrange : header.filesInfoRange with
  | none => simp
  | some range =>
    obtain ⟨slice, blocks, r, hget, hsection⟩ := hfiles range hrange
    have hover {blocks : List (Property × Slice)} {r : Slice}
        (hsection : FilesInfo.Section slice header.numFiles blocks r) :
        FilesInfo.allocatingParse header.data header.externalFolderData slice ≠
          .error .capacityOverflow ↔
        header.numFiles.toNat * FilesInfo.ordinalSize ≤ isizeMax ∨
          FilesInfo.RefusedEarly header.data header.externalFolderData (.empty header.numFiles, 0)
            blocks := by
      rw [ne_eq, FilesInfo.allocatingParse_overflow_iff hsection, not_and_or, not_not, not_lt]
    have hparse : (match range.get header.data with
        | none => .error (.error .parse)
        | some slice =>
          match FilesInfo.allocatingParse header.data header.externalFolderData slice with
          | .ok (files, rest) =>
            if rest.bytes.isEmpty ∧ files.numFiles = header.numFiles then .ok (some files)
            else .error (.error .parse)
          | .error .capacityOverflow => .error .capacityOverflow
          | .error (.error _) => .error (.error .parse) :
          Except (Fault R7zError) (Option FilesInfo)) ≠ .error .capacityOverflow ↔
        FilesInfo.allocatingParse header.data header.externalFolderData slice ≠
          .error .capacityOverflow := by
      rw [hget]
      dsimp only
      cases FilesInfo.allocatingParse header.data header.externalFolderData slice with
      | error fault => cases fault <;> simp
      | ok v =>
        obtain ⟨files, rest⟩ := v
        dsimp only
        split <;> simp
    refine hparse.trans ⟨fun hfit range' slice' blocks' r' hr hg hs => ?_, fun hall => ?_⟩
    · cases hr
      rw [hget] at hg
      cases hg
      exact (hover hs).mp hfit
    · exact (hover hsection).mpr (hall range slice blocks r rfl hget hsection)

theorem Header.allocatingFilesInfo_eq {header : Header}
    (h : header.allocatingFilesInfo ≠ .error .capacityOverflow) :
    header.allocatingFilesInfo = header.tryFilesInfo.mapError .error := by
  unfold allocatingFilesInfo tryFilesInfo parseSection at *
  cases hrange : header.filesInfoRange with
  | none => rfl
  | some range =>
    rw [hrange] at h
    dsimp only at h ⊢
    cases hget : range.get header.data with
    | none => rfl
    | some slice =>
      rw [hget] at h
      dsimp only at h ⊢
      rcases FilesInfo.allocatingParse_unless header.data header.externalFolderData slice with
        hparse | hparse
      · rw [hparse] at h
        exact (h rfl).elim
      · rw [hparse]
        cases hpure : FilesInfo.parseWithExternal header.data header.externalFolderData slice with
        | error e =>
          rw [orFault_error hpure, bind_of_error hpure]
          rfl
        | ok v =>
          obtain ⟨files, rest⟩ := v
          rw [orFault_ok hpure, bind_of_ok hpure]
          dsimp only
          by_cases hcount : files.numFiles = header.numFiles
          · rw [if_pos hcount]
            by_cases hrest : rest.bytes.isEmpty = true
            · rw [if_pos ⟨hrest, hcount⟩, pure_apply]
              dsimp only
              rw [if_pos hrest]
              rfl
            · rw [if_neg fun h => hrest h.1, pure_apply]
              dsimp only
              rw [if_neg hrest]
              rfl
          · rw [if_neg hcount, if_neg fun h => hcount h.2]
            rfl

theorem mapError_bind {ε ε' α β : Type} (g : ε → ε') (x : Except ε α) (f : α → Except ε β) :
    (x >>= f).mapError g = x.mapError g >>= fun v => (f v).mapError g := by
  cases x <;> rfl

theorem Header.allocatingListing_eq {header : Header} (rowSize : ℕ) (physicalSize : Option ℕ)
    (h : header.allocatingFilesInfo ≠ .error .capacityOverflow) :
    header.allocatingListing rowSize physicalSize =
      (header.listed.mapError Fault.error >>= fun listed => do
        withCapacity header.numFiles.toNat rowSize
        let entries ← listed.rows.mapError .error
        return listed.listing physicalSize entries) := by
  rw [allocatingListing, allocatingFilesInfo_eq h, listed]
  simp only [mapError_bind, bind_assoc]
  rfl

theorem Header.allocatingListing_unless {header : Header} (rowSize : ℕ) (physicalSize : Option ℕ)
    (h : header.allocatingFilesInfo ≠ .error .capacityOverflow) :
    header.allocatingListing rowSize physicalSize = .error .capacityOverflow ∨
      header.allocatingListing rowSize physicalSize =
        (header.listing physicalSize).mapError .error := by
  rw [allocatingListing_eq rowSize physicalSize h, listing, mapError_bind]
  cases header.listed with
  | error e => exact .inr rfl
  | ok listed =>
    by_cases hfit : header.numFiles.toNat * rowSize ≤ isizeMax
    · have hrow : withCapacity (ε := R7zError) header.numFiles.toNat rowSize = .ok () := if_pos hfit
      rw [hrow]
      refine .inr ?_
      show _ = (listed.rows >>= fun entries =>
        Pure.pure (listed.listing physicalSize entries)).mapError Fault.error
      rw [mapError_bind]
      rfl
    · have hrow : withCapacity (ε := R7zError) header.numFiles.toNat rowSize =
          .error .capacityOverflow := if_neg hfit
      rw [hrow]
      exact .inl rfl

theorem Header.allocatingListing_fits_iff {header : Header} {rowSize : ℕ} {physicalSize : Option ℕ}
    (h : header.allocatingFilesInfo ≠ .error .capacityOverflow) :
    header.allocatingListing rowSize physicalSize ≠ .error .capacityOverflow ↔
      header.numFiles.toNat * rowSize ≤ isizeMax ∨ ¬header.Lists := by
  rw [allocatingListing_eq rowSize physicalSize h, Lists]
  cases header.listed with
  | error e =>
    refine iff_of_true (fun h => by cases h) (.inr ?_)
    rintro ⟨listed, h⟩
    cases h
  | ok listed =>
    by_cases hfit : header.numFiles.toNat * rowSize ≤ isizeMax
    · have hrow : withCapacity (ε := R7zError) header.numFiles.toNat rowSize = .ok () := if_pos hfit
      refine iff_of_true ?_ (.inl hfit)
      rw [hrow]
      show (listed.rows.mapError Fault.error >>= fun entries =>
        Pure.pure (listed.listing physicalSize entries)) ≠ _
      cases listed.rows <;> exact fun h => by cases h
    · have hrow : withCapacity (ε := R7zError) header.numFiles.toNat rowSize =
          .error .capacityOverflow := if_neg hfit
      rw [hrow]
      exact iff_of_false (fun h => h rfl) fun h => h.elim hfit fun h => h ⟨listed, rfl⟩

/-- Building the file section and the listing of an accepted header asks for no collection past
`isize::MAX` bytes exactly when the declared count of entries gives none that size. -/
theorem collections_fit_iff {backing : Slice} {header : Header} (h : Accepted backing header)
    (rowSize : ℕ) (physicalSize : Option ℕ) :
    (header.allocatingFilesInfo ≠ .error .capacityOverflow ∧
      header.allocatingListing rowSize physicalSize ≠ .error .capacityOverflow) ↔
      header.CollectionsFit rowSize := by
  rw [Header.CollectionsFit, ← Header.allocatingFilesInfo_fits_iff h]
  exact and_congr_right fun hfit => Header.allocatingListing_fits_iff hfit

def threeEntries : Slice := ⟨0, [0x01, 0x05, 0x03, 0x00, 0x00]⟩

def tooManyEntries : Slice :=
  ⟨0, [0x01, 0x05, 0xff, 0x00, 0x00, 0x00, 0x00, 0x00, 0x00, 0x00, 0x80, 0x00, 0x00]⟩

def overflows : Except R7zError HeaderResolution → Bool
  | .ok (.complete header) => match header.allocatingFilesInfo with
    | .error .capacityOverflow => true
    | _ => false
  | _ => false

def threeHeader : Header :=
  { data := threeEntries, streamsInfoRange := none, filesInfoRange := some ⟨1, 4⟩,
    additionalStreamsRange := none, externalFolderData := [], numFiles := 3 }

theorem collections_fit_iff_three :
    (threeHeader.allocatingFilesInfo ≠ .error .capacityOverflow ∧
      threeHeader.allocatingListing 144 none ≠ .error .capacityOverflow) ↔
      threeHeader.CollectionsFit 144 :=
  collections_fit_iff (.resolved (by rfl : Header.resolveArchive threeEntries = _)) 144 none

theorem tooManyEntries_overflow :
    ¬∀ backing header, Accepted backing header → ∀ rowSize physicalSize,
      header.allocatingFilesInfo ≠ .error .capacityOverflow ∧
        header.allocatingListing rowSize physicalSize ≠ .error .capacityOverflow := by
  intro h
  have hrun : overflows (Header.resolveArchive tooManyEntries) = true := by decide +kernel
  unfold overflows at hrun
  split at hrun
  · next header hscan =>
    split at hrun
    · next hover => exact (h tooManyEntries header (.resolved hscan) 144 none).1 hover
    · cases hrun
  · cases hrun

end R7z
