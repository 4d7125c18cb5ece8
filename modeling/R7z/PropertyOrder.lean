import R7z.Capacity
import R7z.FilesRoundTrip
import R7z.StreamsRoundTrip

/-! The properties of the file section may come in any order. -/

namespace R7z

open Wire Wire.Parser

namespace FilesInfo

/-! What a property says -/

inductive PropertyValue where
  | name (nameData : List UInt8)
  | ctimes (values : List (Option UInt64))
  | atimes (values : List (Option UInt64))
  | mtimes (values : List (Option UInt64))
  | startPositions (values : List (Option UInt64))
  | attributes (values : List (Option UInt32))
  | emptyStreams (bitmap : List UInt8)
  | emptyFiles (bitmap : List UInt8)
  | antiItems (bitmap : List UInt8)
  | nothing

namespace PropertyValue

def set (value : PropertyValue) (files : FilesInfo) : FilesInfo :=
  match value with
  | .name data => { files with nameData := data }
  | .ctimes values => { files with ctimes := values }
  | .atimes values => { files with atimes := values }
  | .mtimes values => { files with mtimes := values }
  | .startPositions values => { files with startPositions := values }
  | .attributes values => { files with attributes := values }
  | .emptyStreams bitmap => { files with emptyStreams := bitmap }
  | .emptyFiles bitmap => { files with emptyFiles := bitmap }
  | .antiItems bitmap => { files with antiItems := bitmap }
  | .nothing => files

def tag? : PropertyValue → Option Property
  | .name _ => some .Name
  | .ctimes _ => some .CTime
  | .atimes _ => some .ATime
  | .mtimes _ => some .MTime
  | .startPositions _ => some .StartPos
  | .attributes _ => some .Attributes
  | .emptyStreams _ => some .EmptyStream
  | .emptyFiles _ => some .EmptyFile
  | .antiItems _ => some .Anti
  | .nothing => none

theorem set_numFiles (value : PropertyValue) (files : FilesInfo) :
    (value.set files).numFiles = files.numFiles := by
  cases value <;> rfl

theorem set_comm (v w : PropertyValue) (h : v.tag? = none ∨ v.tag? ≠ w.tag?) (files : FilesInfo) :
    w.set (v.set files) = v.set (w.set files) := by
  cases v <;> cases w <;> first | rfl | exact absurd rfl (h.resolve_left (by simp [tag?]))

end PropertyValue

def readValue (numFiles : ℕ) (tag : Property) (block backing : Slice) (externalData : List Slice) :
    Except NomErr PropertyValue :=
  match tag with
  | .Name => do
    let nameData ← propertyData block backing externalData
    validateNameData nameData numFiles
    return .name nameData
  | .CTime => do
    let property ← DefinedProperty.parse block numFiles backing externalData
    return .ctimes (← parseDefinedU64Values property numFiles)
  | .ATime => do
    let property ← DefinedProperty.parse block numFiles backing externalData
    return .atimes (← parseDefinedU64Values property numFiles)
  | .MTime => do
    let property ← DefinedProperty.parse block numFiles backing externalData
    return .mtimes (← parseDefinedU64Values property numFiles)
  | .StartPos => do
    let property ← DefinedProperty.parse block numFiles backing externalData
    return .startPositions (← parseDefinedU64Values property numFiles)
  | .Attributes => do
    let property ← DefinedProperty.parse block numFiles backing externalData
    return .attributes (← parseDefinedU32Values property numFiles)
  | .EmptyStream => return .emptyStreams (← bytesSubslice backing block)
  | .EmptyFile => return .emptyFiles (← bytesSubslice backing block)
  | .Anti => return .antiItems (← bytesSubslice backing block)
  | _ => return .nothing

theorem readProperty_eq (files : FilesInfo) (tag : Property) (block backing : Slice)
    (externalData : List Slice) : readProperty files tag block backing externalData =
      (readValue files.numFiles.toNat tag block backing externalData).map (·.set files) := by
  cases tag <;> first | rfl | (rw [readProperty, readValue]; simp only [except_bind_map]; rfl)

theorem readValue_tag {numFiles : ℕ} {tag : Property} {block backing : Slice} {externalData : List Slice}
    {value : PropertyValue} (h : readValue numFiles tag block backing externalData = .ok value) :
    value.tag? = if (propertyMask tag).isSome then some tag else none := by
  cases tag with
  | Name | CTime | ATime | MTime | StartPos | Attributes =>
    obtain ⟨_, _, h⟩ := except_bind_eq_ok.mp h
    obtain ⟨_, _, h⟩ := except_bind_eq_ok.mp h
    cases h
    rfl
  | EmptyStream | EmptyFile | Anti =>
    obtain ⟨_, _, h⟩ := except_bind_eq_ok.mp h
    cases h
    rfl
  | _ =>
    cases h
    rfl

/-! One block after another -/

def registered (seen : UInt32) (tag : Property) : Option UInt32 := (register seen tag).toOption

def valueOf (externalData : List Slice) (numFiles : UInt64) (block : Property × List UInt8) :
    Option PropertyValue :=
  (readValue numFiles.toNat block.1 ⟨0, block.2⟩ ⟨0, block.2⟩ externalData).toOption

def acceptValue (externalData : List Slice) (acc : FilesInfo × UInt32) (block : Property × List UInt8) :
    Option (FilesInfo × UInt32) :=
  (registered acc.2 block.1).bind fun seen =>
    (valueOf externalData acc.1.numFiles block).map fun value => (value.set acc.1, seen)

theorem registered_of_none {tag : Property} (h : propertyMask tag = none) (seen : UInt32) :
    registered seen tag = some seen := by
  rw [registered, register, h]
  rfl

theorem registered_of_mask {tag : Property} {mask : UInt32} (h : propertyMask tag = some mask) (seen : UInt32) :
    registered seen tag = if seen &&& mask = 0 then some (seen ||| mask) else none := by
  rw [registered, register, h]
  dsimp only
  by_cases hseen : seen &&& mask = 0
  · rw [if_neg (not_not_intro hseen), if_pos hseen]
    rfl
  · rw [if_pos hseen, if_neg hseen]
    rfl

theorem registered_after {tag tag' : Property} (hne : tag ≠ tag') {mask mask' : UInt32}
    (h : propertyMask tag = some mask) (h' : propertyMask tag' = some mask') (seen : UInt32) :
    (registered seen tag).bind (registered · tag') =
      if seen &&& mask = 0 ∧ seen &&& mask' = 0 then some (seen ||| mask ||| mask') else none := by
  have hdistrib : (seen ||| mask) &&& mask' = (seen &&& mask') ||| (mask &&& mask') :=
    UInt32.toBitVec_inj.mp BitVec.and_or_distrib_right
  rw [propertyMask_disjoint tag tag' hne mask h mask' h', UInt32.or_zero] at hdistrib
  rw [registered_of_mask h]
  by_cases hseen : seen &&& mask = 0
  · rw [if_pos hseen, Option.bind_some, registered_of_mask h', hdistrib]
    simp only [hseen, true_and]
  · rw [if_neg hseen, if_neg fun hboth => hseen hboth.1]
    rfl

theorem registered_comm (seen : UInt32) (tag tag' : Property) :
    (registered seen tag).bind (registered · tag') = (registered seen tag').bind (registered · tag) := by
  by_cases heq : tag = tag'
  · rw [heq]
  · cases h : propertyMask tag with
    | none =>
      rw [registered_of_none h, Option.bind_some]
      cases hseen : registered seen tag' with
      | none => rfl
      | some seen' => rw [Option.bind_some, registered_of_none h]
    | some mask =>
      cases h' : propertyMask tag' with
      | none =>
        rw [registered_of_none h' seen, Option.bind_some]
        cases hseen : registered seen tag with
        | none => rfl
        | some seen' => rw [Option.bind_some, registered_of_none h']
      | some mask' =>
        have hboth : seen ||| mask ||| mask' = seen ||| mask' ||| mask := by
          rw [UInt32.or_assoc, UInt32.or_comm mask, ← UInt32.or_assoc]
        rw [registered_after heq h h', registered_after (Ne.symm heq) h' h, hboth]
        exact if_congr and_comm rfl rfl

theorem registered_twice {tag : Property} (h : (propertyMask tag).isSome) (seen : UInt32) :
    (registered seen tag).bind (registered · tag) = none := by
  obtain ⟨mask, hmask⟩ := Option.isSome_iff_exists.mp h
  have hbit : mask &&& mask ≠ 0 := by
    rw [UInt32.and_self]
    cases tag <;> cases hmask <;> decide
  rw [registered_of_mask hmask]
  by_cases hseen : seen &&& mask = 0
  · have hdistrib : (seen ||| mask) &&& mask = (seen &&& mask) ||| (mask &&& mask) :=
      UInt32.toBitVec_inj.mp BitVec.and_or_distrib_right
    rw [hseen, UInt32.zero_or] at hdistrib
    rw [if_pos hseen, Option.bind_some, registered_of_mask hmask, hdistrib, if_neg hbit]
  · rw [if_neg hseen]
    rfl

theorem valueOf_tag {externalData : List Slice} {numFiles : UInt64} {block : Property × List UInt8}
    {value : PropertyValue} (h : valueOf externalData numFiles block = some value) :
    value.tag? = if (propertyMask block.1).isSome then some block.1 else none := by
  rw [valueOf] at h
  rcases hread : readValue numFiles.toNat block.1 ⟨0, block.2⟩ ⟨0, block.2⟩ externalData with e | value'
  · rw [hread] at h
    cases h
  · rw [hread] at h
    cases h
    exact readValue_tag hread

/-- Two blocks: both tags are registered, both values are read, and then they are set. -/
theorem acceptValue_twice (externalData : List Slice) (acc : FilesInfo × UInt32)
    (block block' : Property × List UInt8) :
    (acceptValue externalData acc block).bind (acceptValue externalData · block') =
      ((registered acc.2 block.1).bind (registered · block'.1)).bind fun seen =>
        (valueOf externalData acc.1.numFiles block).bind fun v =>
          (valueOf externalData acc.1.numFiles block').map fun w => (w.set (v.set acc.1), seen) := by
  rw [acceptValue]
  cases hseen : registered acc.2 block.1 with
  | none => rfl
  | some seen =>
    rw [Option.bind_some, Option.bind_some]
    cases hvalue : valueOf externalData acc.1.numFiles block with
    | none =>
      rw [Option.map_none, Option.bind_none]
      cases registered seen block'.1 <;> rfl
    | some v =>
      rw [Option.map_some, Option.bind_some, acceptValue]
      dsimp only
      rw [PropertyValue.set_numFiles]
      rfl

theorem acceptValue_comm (externalData : List Slice) (acc : FilesInfo × UInt32)
    (block block' : Property × List UInt8) :
    (acceptValue externalData acc block).bind (acceptValue externalData · block') =
      (acceptValue externalData acc block').bind (acceptValue externalData · block) := by
  rw [acceptValue_twice, acceptValue_twice]
  by_cases htwice : block.1 = block'.1 ∧ (propertyMask block.1).isSome
  · rw [← htwice.1, registered_twice htwice.2]
    rfl
  · rw [registered_comm]
    refine congrArg _ (funext fun seen => ?_)
    cases hv : valueOf externalData acc.1.numFiles block with
    | none =>
      cases valueOf externalData acc.1.numFiles block' <;> rfl
    | some v =>
      cases hw : valueOf externalData acc.1.numFiles block' with
      | none => rfl
      | some w =>
        have htag : v.tag? = none ∨ v.tag? ≠ w.tag? := by
          rw [valueOf_tag hv, valueOf_tag hw]
          by_cases hmask : (propertyMask block.1).isSome
          · right
            rw [if_pos hmask]
            intro hsame
            split at hsame
            · exact htwice ⟨Option.some.inj hsame, hmask⟩
            · cases hsame
          · exact .inl (if_neg hmask)
        rw [Option.bind_some, Option.bind_some, Option.map_some, Option.map_some,
          PropertyValue.set_comm v w htag]

theorem acceptAll_perm (externalData : List Slice) {blocks blocks' : List (Property × List UInt8)}
    (h : blocks.Perm blocks') (acc : Option (FilesInfo × UInt32)) :
    blocks.foldl (fun acc block => acc.bind (acceptValue externalData · block)) acc =
      blocks'.foldl (fun acc block => acc.bind (acceptValue externalData · block)) acc := by
  refine h.foldl_eq' (fun block _ block' _ acc => ?_) acc
  cases acc with
  | none => rfl
  | some acc => exact acceptValue_comm externalData acc block block'

/-! Where a block lies -/

section
variable {backing backing' : Slice} {a a' : ℕ} {bytes : List UInt8} (externalData : List Slice)

theorem decode_elsewhere {index : UInt64} {r : Slice} (h : sevenzipVaruint64Decode ⟨a, bytes⟩ = .ok (index, r))
    (a' : ℕ) : ∃ r', sevenzipVaruint64Decode ⟨a', bytes⟩ = .ok (index, r') ∧ r'.bytes = r.bytes := by
  obtain ⟨e, hafter, hread⟩ := sevenzipVaruint64Decode_portable _ _ _ h
  have hbytes : bytes = e ++ r.bytes := hafter.1
  rw [hbytes]
  exact ⟨_, hread a' r.bytes trivial, rfl⟩

theorem externalPropertyData_elsewhere (a a' : ℕ) (bytes : List UInt8) :
    externalPropertyData ⟨a, bytes⟩ externalData = externalPropertyData ⟨a', bytes⟩ externalData := by
  unfold externalPropertyData
  rcases h : sevenzipVaruint64Decode ⟨a, bytes⟩ with e | ⟨index, r⟩
  · rcases h' : sevenzipVaruint64Decode ⟨a', bytes⟩ with e' | ⟨index', r'⟩
    · rfl
    · obtain ⟨r'', hr'', -⟩ := decode_elsewhere h' a
      cases h.symm.trans hr''
  · obtain ⟨r', hr', hbytes⟩ := decode_elsewhere h a'
    rw [hr']
    dsimp only
    rw [hbytes]

theorem propertyData_elsewhere (h : (Window.within backing).mem ⟨a, bytes⟩)
    (h' : (Window.within backing').mem ⟨a', bytes⟩) :
    propertyData ⟨a, bytes⟩ backing externalData = propertyData ⟨a', bytes⟩ backing' externalData := by
  cases bytes with
  | nil => rfl
  | cons external data =>
    have hdata : (Window.within backing).mem ⟨a + 1, data⟩ := (Window.within backing).drop (e := [external]) h
    have hdata' : (Window.within backing').mem ⟨a' + 1, data⟩ :=
      (Window.within backing').drop (e := [external]) h'
    show (if external = 0 then bytesSubslice backing ⟨a + 1, data⟩ else
        externalPropertyData ⟨a + 1, data⟩ externalData) =
      if external = 0 then bytesSubslice backing' ⟨a' + 1, data⟩ else
        externalPropertyData ⟨a' + 1, data⟩ externalData
    rw [bytesSubslice_within hdata, bytesSubslice_within hdata',
      externalPropertyData_elsewhere externalData (a + 1) (a' + 1)]

theorem within_drop {s : Slice} (h : (Window.within backing).mem s) (n : ℕ) (hn : n ≤ s.bytes.length) :
    (Window.within backing).mem ⟨s.addr + n, s.bytes.drop n⟩ := by
  have hafter : s.After (s.bytes.take n) ⟨s.addr + n, s.bytes.drop n⟩ :=
    ⟨(List.take_append_drop n s.bytes).symm, by rw [List.length_take_of_le hn]⟩
  exact (Window.within backing).suffix h hafter

theorem definedProperty_elsewhere (h : (Window.within backing).mem ⟨a, bytes⟩)
    (h' : (Window.within backing').mem ⟨a', bytes⟩) (n : ℕ) :
    DefinedProperty.parse ⟨a, bytes⟩ n backing externalData =
      DefinedProperty.parse ⟨a', bytes⟩ n backing' externalData := by
  cases bytes with
  | nil => rfl
  | cons allDefined payload =>
    have hpayload : (Window.within backing).mem ⟨a + 1, payload⟩ :=
      (Window.within backing).drop (e := [allDefined]) h
    have hpayload' : (Window.within backing').mem ⟨a' + 1, payload⟩ :=
      (Window.within backing').drop (e := [allDefined]) h'
    unfold DefinedProperty.parse
    show (takeBytes (if allDefined = 0 then (n + 7) / 8 else 0) ⟨a + 1, payload⟩ >>= _) =
      (takeBytes (if allDefined = 0 then (n + 7) / 8 else 0) ⟨a' + 1, payload⟩ >>= _)
    generalize (if allDefined = 0 then (n + 7) / 8 else 0) = bitmapLen
    unfold takeBytes Parser.take
    dsimp only
    by_cases hlen : bitmapLen ≤ payload.length
    · have hvalues := within_drop hpayload bitmapLen
      have hvalues' := within_drop hpayload' bitmapLen
      rw [if_pos hlen, if_pos hlen]
      show (propertyData ⟨a + 1 + bitmapLen, payload.drop bitmapLen⟩ backing externalData >>= _) =
        (propertyData ⟨a' + 1 + bitmapLen, payload.drop bitmapLen⟩ backing' externalData >>= _)
      rw [propertyData_elsewhere externalData (hvalues hlen) (hvalues' hlen)]
    · rw [if_neg hlen, if_neg hlen]
      rfl

theorem readValue_within (h : (Window.within backing).mem ⟨a, bytes⟩) (numFiles : UInt64) (tag : Property) :
    (readValue numFiles.toNat tag ⟨a, bytes⟩ backing externalData).toOption =
      valueOf externalData numFiles (tag, bytes) := by
  have hself : (Window.within ⟨0, bytes⟩).mem ⟨0, bytes⟩ := Window.within_self _
  have hdata := propertyData_elsewhere externalData h hself
  have hdefined := definedProperty_elsewhere externalData h hself numFiles.toNat
  have hbitmap : bytesSubslice backing ⟨a, bytes⟩ = bytesSubslice ⟨0, bytes⟩ ⟨0, bytes⟩ :=
    (bytesSubslice_within h).trans (bytesSubslice_within hself).symm
  unfold valueOf
  dsimp only
  cases tag <;> first | rfl | simp only [readValue, hdata, hdefined, hbitmap]

theorem accept_within (h : (Window.within backing).mem ⟨a, bytes⟩) (acc : FilesInfo × UInt32) (tag : Property) :
    (accept backing externalData acc (tag, ⟨a, bytes⟩)).toOption = acceptValue externalData acc (tag, bytes) := by
  rw [accept, acceptValue, registered, ← readValue_within externalData h]
  dsimp only
  rcases register acc.2 tag with e | seen
  · rfl
  · show (readProperty acc.1 tag ⟨a, bytes⟩ backing externalData >>= _).toOption = _
    rw [readProperty_eq]
    rcases readValue acc.1.numFiles.toNat tag ⟨a, bytes⟩ backing externalData with e | value
    · rfl
    · rfl

def contents (blocks : List (Property × Slice)) : List (Property × List UInt8) :=
  blocks.map fun block => (block.1, block.2.bytes)

theorem acceptAll_none : ∀ blocks : List (Property × List UInt8),
    blocks.foldl (fun acc block => acc.bind (acceptValue externalData · block)) none = none
  | [] => rfl
  | _ :: blocks => acceptAll_none blocks

theorem acceptAll_within : ∀ {blocks : List (Property × Slice)} (acc : FilesInfo × UInt32),
    (∀ block ∈ blocks, (Window.within backing).mem block.2) →
    (blocks.foldlM (accept backing externalData) acc).toOption =
      (contents blocks).foldl (fun acc block => acc.bind (acceptValue externalData · block)) (some acc)
  | [], _, _ => rfl
  | (tag, ⟨a, bytes⟩) :: blocks, acc, h => by
    obtain ⟨hblock, hblocks⟩ := List.forall_mem_cons.mp h
    have haccept := accept_within externalData hblock acc tag
    rw [contents, List.map_cons, List.foldl_cons, List.foldlM_cons, Option.bind_some, ← haccept]
    rcases accept backing externalData acc (tag, ⟨a, bytes⟩) with e | acc'
    · exact (acceptAll_none externalData _).symm
    · exact acceptAll_within acc' hblocks

theorem Blocks.within {s r : Slice} {blocks : List (Property × Slice)} (h : Blocks s blocks r)
    (hs : (Window.within backing).mem s) : ∀ block ∈ blocks, (Window.within backing).mem block.2 := by
  induction h with
  | done _ => exact fun block hblock => absurd hblock List.not_mem_nil
  | @more s s₁ s₂ s₃ r tag size block blocks htag _ hsize hblock _ ih =>
    obtain ⟨e, he, -⟩ := Property.parse_scans (W := Window.all) s tag s₁ trivial htag
    obtain ⟨e', he', -⟩ := sevenzipVaruint64Decode_scans (W := Window.all) s₁ size s₂ trivial hsize
    obtain ⟨hlength, haddr, hrest⟩ := take_eq_ok.mp hblock
    have hs₂ := (Window.within backing).suffix ((Window.within backing).suffix hs he) he'
    refine List.forall_mem_cons.mpr ⟨?_, ih ((Window.within backing).suffix hs₂ hrest)⟩
    have htake := Window.within_take hs₂ size.toNat
    rwa [hrest.1, List.take_left' hlength, ← haddr] at htake

theorem turn_block {s s₁ s₂ s₃ : Slice} {tag : Property} {size : UInt64} {block : Slice}
    (acc : FilesInfo × UInt32) (htag : Property.parse s = .ok (tag, s₁)) (hend : tag ≠ .END)
    (hsize : sevenzipVaruint64Decode s₁ = .ok (size, s₂))
    (hblock : takeBytes size.toNat s₂ = .ok (block, s₃)) :
    turn backing externalData acc s =
      (accept backing externalData acc (tag, block)).map fun acc => (.again acc, s₃) := by
  rw [turn, bind_of_ok htag, if_neg hend, accept]
  rcases register acc.2 tag with e | seen
  · rfl
  · show (sevenzipVaruint64Decode >>= _) s₁ = _
    rw [bind_of_ok hsize, bind_of_ok hblock]
    rcases readProperty acc.1 tag block backing externalData with e | files
    · rfl
    · rfl

theorem parse_blocks {s r : Slice} {numFiles : UInt64} {blocks : List (Property × Slice)}
    (h : Section s numFiles blocks r) :
    parseWithExternal backing externalData s =
      (blocks.foldlM (accept backing externalData) (empty numFiles, 0)).map fun acc =>
        ({ acc.1 with emptyStreamOrdinals := R7z.emptyStreamOrdinals acc.1.emptyStreams numFiles.toNat }, r) := by
  obtain ⟨s₁, s₂, h1, h2, hblocks⟩ := h
  have hloop : loop (.error .eof) (turn backing externalData) (empty numFiles, 0) s₂ =
      (blocks.foldlM (accept backing externalData) (empty numFiles, 0)).map fun acc => (acc.1, r) := by
    refine loopFuel_fold (fun acc s r htag => ?_) (fun acc s s₁ s₂ s₃ tag size block htag hend hsize hblock =>
      turn_block externalData acc htag hend hsize hblock) hblocks _ le_rfl
    rw [turn, bind_of_ok htag]
    rfl
  rw [parseWithExternal, bind_of_ok h1, bind_of_ok h2]
  rcases hfold : blocks.foldlM (accept backing externalData) (empty numFiles, 0) with e | acc
  · rw [hfold] at hloop
    rw [bind_of_error hloop]
    rfl
  · rw [hfold] at hloop
    rw [bind_of_ok hloop]
    rfl

theorem parse_section {s r : Slice} {numFiles : UInt64} {blocks : List (Property × Slice)}
    (h : Section s numFiles blocks r) (hs : (Window.within backing).mem s) :
    (parseWithExternal backing externalData s).toOption =
      ((contents blocks).foldl (fun acc block => acc.bind (acceptValue externalData · block))
        (some (empty numFiles, 0))).map fun acc =>
          ({ acc.1 with emptyStreamOrdinals := R7z.emptyStreamOrdinals acc.1.emptyStreams numFiles.toNat }, r) := by
  rw [parse_blocks externalData h]
  obtain ⟨s₁, s₂, h1, h2, hblocks⟩ := h
  obtain ⟨e, he, -⟩ := expectProperty_scans (W := Window.all) .FilesInfo s () s₁ trivial h1
  obtain ⟨e', he', -⟩ := sevenzipVaruint64Decode_scans (W := Window.all) s₁ numFiles s₂ trivial h2
  have hs₂ := (Window.within backing).suffix ((Window.within backing).suffix hs he) he'
  rw [← acceptAll_within externalData _ (hblocks.within hs₂)]
  rcases blocks.foldlM (accept backing externalData) (empty numFiles, 0) with e | acc
  · rfl
  · rfl

end

/-! Sections as they are written -/

end FilesInfo

/-- One property: its tag, its size in any form that is read as such, and its bytes. -/
structure PropertyBlock where
  tag : Property
  size : List UInt8
  payload : List UInt8
  tag_ne : tag ≠ .END
  size_reads : Reads Window.all sevenzipVaruint64Decode size (UInt64.ofNat payload.length)
  payload_lt : payload.length < 2 ^ 64

def PropertyBlock.bytes (block : PropertyBlock) : List UInt8 := block.tag.toU8 :: (block.size ++ block.payload)

def sectionBytes (count : List UInt8) (blocks : List PropertyBlock) : List UInt8 :=
  Property.FilesInfo.toU8 :: (count ++ (blocks.flatMap PropertyBlock.bytes ++ [Property.END.toU8]))

namespace FilesInfo

theorem blocks_of_bytes (rest : List UInt8) : ∀ (blocks : List PropertyBlock) (a : ℕ),
    ∃ slices r, Blocks ⟨a, blocks.flatMap PropertyBlock.bytes ++ [Property.END.toU8] ++ rest⟩ slices r ∧
      contents slices = blocks.map fun block => (block.tag, block.payload)
  | [], a => ⟨[], _, .done (Property.parse_reads (W := Window.all) .END a rest trivial), rfl⟩
  | block :: blocks, a => by
    obtain ⟨slices, r, hblocks, hcontents⟩ := blocks_of_bytes rest blocks (a + 1 + block.size.length + block.payload.length)
    have hwhole : (block :: blocks).flatMap PropertyBlock.bytes ++ [Property.END.toU8] ++ rest =
        [block.tag.toU8] ++ (block.size ++ (block.payload ++
          (blocks.flatMap PropertyBlock.bytes ++ [Property.END.toU8] ++ rest))) := by
      rw [List.flatMap_cons, PropertyBlock.bytes]
      simp only [List.append_assoc, List.cons_append, List.nil_append]
    have hsize : (UInt64.ofNat block.payload.length).toNat = block.payload.length :=
      UInt64.toNat_ofNat_of_lt' block.payload_lt
    rw [hwhole]
    refine ⟨(block.tag, ⟨a + 1 + block.size.length, block.payload⟩) :: slices, r, ?_, ?_⟩
    · refine .more (Property.parse_reads (W := Window.all) block.tag a _ trivial) block.tag_ne
        (block.size_reads (a + 1) _ trivial) ?_ hblocks
      rw [hsize]
      exact take_append _ _ _ _
    · rw [contents, List.map_cons, List.map_cons, ← hcontents, contents]

theorem section_of_bytes {count : List UInt8} {numFiles : UInt64}
    (hcount : Reads Window.all sevenzipVaruint64Decode count numFiles) (blocks : List PropertyBlock) (a : ℕ)
    (rest : List UInt8) :
    ∃ slices r, Section ⟨a, sectionBytes count blocks ++ rest⟩ numFiles slices r ∧
      contents slices = blocks.map fun block => (block.tag, block.payload) := by
  obtain ⟨slices, r, hblocks, hcontents⟩ := blocks_of_bytes rest blocks (a + 1 + count.length)
  have hwhole : sectionBytes count blocks ++ rest = [Property.FilesInfo.toU8] ++ (count ++
      (blocks.flatMap PropertyBlock.bytes ++ [Property.END.toU8] ++ rest)) := by
    rw [sectionBytes]
    simp only [List.append_assoc, List.cons_append, List.nil_append]
  rw [hwhole]
  exact ⟨slices, r, ⟨_, _, expectProperty_reads (W := Window.all) .FilesInfo a _ trivial,
    hcount (a + 1) _ trivial, hblocks⟩, hcontents⟩

/-- The properties of a file section may come in any order: one order is accepted when another is, and the
record is the same, so that every entry has the same name, times, attributes and kind. -/
theorem property_order {count : List UInt8} {numFiles : UInt64}
    (hcount : Reads Window.all sevenzipVaruint64Decode count numFiles) {blocks blocks' : List PropertyBlock}
    (h : blocks.Perm blocks') (externalData : List Slice) {backing backing' : Slice} {a a' : ℕ}
    {rest rest' : List UInt8} (hs : (Window.within backing).mem ⟨a, sectionBytes count blocks ++ rest⟩)
    (hs' : (Window.within backing').mem ⟨a', sectionBytes count blocks' ++ rest'⟩) (files : FilesInfo) :
    (∃ r, parseWithExternal backing externalData ⟨a, sectionBytes count blocks ++ rest⟩ = .ok (files, r)) ↔
      ∃ r, parseWithExternal backing' externalData ⟨a', sectionBytes count blocks' ++ rest'⟩ = .ok (files, r) := by
  obtain ⟨slices, r, hsection, hcontents⟩ := section_of_bytes hcount blocks a rest
  obtain ⟨slices', r', hsection', hcontents'⟩ := section_of_bytes hcount blocks' a' rest'
  have hperm : (contents slices).Perm (contents slices') := by
    rw [hcontents, hcontents']
    exact h.map _
  have hparse := parse_section externalData hsection hs
  have hparse' := parse_section externalData hsection' hs'
  rw [acceptAll_perm externalData hperm] at hparse
  simp only [← toOption_eq_some, hparse, hparse', Option.map_eq_some_iff, Prod.mk.injEq]
  constructor
  · rintro ⟨_, acc, hacc, hfiles, -⟩
    exact ⟨r', acc, hacc, hfiles, rfl⟩
  · rintro ⟨_, acc, hacc, hfiles, -⟩
    exact ⟨r, acc, hacc, hfiles, rfl⟩

def bitmapBlock (tag : Property) (bits : UInt8) (h : tag ≠ .END) : PropertyBlock where
  tag
  size := sevenzipVaruint64Encode 1
  payload := [bits]
  tag_ne := h
  size_reads := sevenzipVaruint64Decode_reads 1
  payload_lt := Nat.one_lt_two_pow_iff.mpr (Nat.succ_ne_zero 63)

/-- Of two entries without a stream the second is an empty file, told before and after it is told that
they have no stream. -/
theorem property_order_empty_file :
    let emptyStream := bitmapBlock .EmptyStream 0xC0 (fun h => by cases h)
    let emptyFile := bitmapBlock .EmptyFile 0x40 (fun h => by cases h)
    let backing : Slice := ⟨0, sectionBytes (sevenzipVaruint64Encode 2) [emptyFile, emptyStream]⟩
    ∃ files r, parseWithExternal backing [] backing = .ok (files, r) ∧ files.entryKind 1 = .emptyFile := by
  intro emptyStream emptyFile backing
  let first : Slice := ⟨0, sectionBytes (sevenzipVaruint64Encode 2) [emptyStream, emptyFile]⟩
  have hparse : ((parseWithExternal first [] first).toOption.map fun parsed => parsed.1.entryKind 1) =
      some .emptyFile := by decide +kernel
  obtain ⟨⟨files, r⟩, hfirst, hkind⟩ := Option.map_eq_some_iff.mp hparse
  have horder := @property_order _ _ (sevenzipVaruint64Decode_reads 2) _ _
    (List.Perm.swap emptyStream emptyFile []) [] backing first 0 0 [] []
    (Window.within_self backing) (Window.within_self first) files
  obtain ⟨r', hsecond⟩ := horder.mpr ⟨r, toOption_eq_some.mp hfirst⟩
  exact ⟨files, r', hsecond, hkind⟩

end FilesInfo

end R7z
