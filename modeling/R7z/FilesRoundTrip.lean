import R7z.Write.Header

/-! The file section is read back as it was written: names, times, attributes and the kinds of the
entries that own no stream. -/

namespace R7z

open Wire Wire.Parser Write

/-! Names -/

theorem nextName_append : ∀ {name : List UInt8}, UnitsWithoutNul name → ∀ rest,
    nextName (name ++ 0 :: 0 :: rest) = (some name, rest)
  | [], _, _ => rfl
  | [_], h, _ => h.elim
  | a :: b :: name, h, rest => by
    change nextName (a :: b :: (name ++ 0 :: 0 :: rest)) = _
    rw [nextName, if_neg h.1, nextName_append h.2]
    rfl

theorem skipName_append : ∀ {name : List UInt8}, UnitsWithoutNul name → ∀ rest,
    skipName (name ++ 0 :: 0 :: rest) = some rest
  | [], _, _ => rfl
  | [_], h, _ => h.elim
  | a :: b :: name, h, rest => by
    change skipName (a :: b :: (name ++ 0 :: 0 :: rest)) = _
    rw [skipName, if_neg h.1, skipName_append h.2]

theorem nameData_cons (entry : WriteEntry) (entries : List WriteEntry) :
    nameData (entry :: entries) = nameBytes entry ++ 0 :: 0 :: nameData entries := by
  simp [nameData]

theorem skipNames_nameData : ∀ {entries : List WriteEntry},
    (∀ e ∈ entries, UnitsWithoutNul (nameBytes e)) →
      skipNames entries.length (nameData entries) = some []
  | [], _ => rfl
  | e :: entries, h => by
    rw [nameData_cons, List.length_cons, skipNames, skipName_append (h e (by simp)), Option.bind_some]
    exact skipNames_nameData fun e' he => h e' (by simp [he])

theorem nameSlicesFrom_nameData : ∀ {entries : List WriteEntry},
    (∀ e ∈ entries, UnitsWithoutNul (nameBytes e)) →
      nameSlicesFrom entries.length (nameData entries) = entries.map fun e => some (nameBytes e)
  | [], _ => rfl
  | e :: entries, h => by
    rw [nameData_cons, List.length_cons, nameSlicesFrom, nextName_append (h e (by simp))]
    exact congrArg _ (nameSlicesFrom_nameData fun e' he => h e' (by simp [he]))

theorem unit_bytes (unit : UInt16) : toLeBytes 2 unit.toNat =
    [UInt8.ofNat unit.toNat, UInt8.ofNat (unit.toNat / 256)] := rfl

theorem unitsWithoutNul_flatMap : ∀ {units : List UInt16}, (0 : UInt16) ∉ units →
    UnitsWithoutNul (units.flatMap fun unit => toLeBytes 2 unit.toNat)
  | [], _ => trivial
  | unit :: units, h => by
    rw [List.mem_cons, not_or] at h
    rw [List.flatMap_cons, unit_bytes]
    refine ⟨fun hzero => h.1 ?_, unitsWithoutNul_flatMap h.2⟩
    have hlow := congrArg UInt8.toNat hzero.1
    have hhigh := congrArg UInt8.toNat hzero.2
    rw [UInt8.toNat_ofNat'] at hlow hhigh
    have hlt := unit.toNat_lt
    apply UInt16.toNat_inj.mp
    change 0 = unit.toNat
    change unit.toNat % 2 ^ 8 = 0 at hlow
    change unit.toNat / 256 % 2 ^ 8 = 0 at hhigh
    omega

theorem nameBytes_valid {entry : WriteEntry}
    (h : entry.rawName = none → (0 : UInt16) ∉ encodeUtf16 entry.name) :
    UnitsWithoutNul (nameBytes entry) := by
  unfold nameBytes
  cases hraw : entry.rawName with
  | some rawName => exact rawName.valid
  | none => exact unitsWithoutNul_flatMap (h hraw)

/-! Property blocks -/

def Fresh (seen : UInt32) (tags : List Property) : Prop :=
  ∀ tag ∈ tags, (propertyMask tag).elim True fun mask => seen &&& mask = 0

theorem propertyMask_disjoint (tag tag' : Property) (h : tag ≠ tag') :
    ∀ mask ∈ propertyMask tag, ∀ mask' ∈ propertyMask tag', mask &&& mask' = 0 := by
  have hbits : (propertyMask tag).getD 0 &&& (propertyMask tag').getD 0 = 0 := by
    revert h
    cases tag <;> cases tag' <;> decide
  intro mask hmask mask' hmask'
  rwa [hmask, hmask'] at hbits

theorem Fresh.register {seen : UInt32} {tag : Property} {tags : List Property}
    (h : Fresh seen (tag :: tags)) (hnot : tag ∉ tags) :
    ∃ seen', R7z.register seen tag = .ok seen' ∧ Fresh seen' tags := by
  have htag := h tag (by simp)
  have htags : Fresh seen tags := fun t ht => h t (by simp [ht])
  unfold R7z.register
  cases hmask : propertyMask tag with
  | none => exact ⟨seen, rfl, htags⟩
  | some mask =>
    rw [hmask] at htag
    refine ⟨seen ||| mask, if_neg (not_not_intro htag), fun t ht => ?_⟩
    have htold := htags t ht
    cases hmask' : propertyMask t with
    | none => trivial
    | some mask' =>
      rw [hmask'] at htold
      have hdisjoint : mask &&& mask' = 0 :=
        propertyMask_disjoint tag t (fun heq => hnot (heq ▸ ht)) mask hmask mask' hmask'
      change (seen ||| mask) &&& mask' = 0
      have hdistrib : (seen ||| mask) &&& mask' = (seen &&& mask') ||| (mask &&& mask') :=
        UInt32.toBitVec_inj.mp BitVec.and_or_distrib_right
      rw [hdistrib, htold, hdisjoint, UInt32.or_zero]

section
variable {backing : Slice} {externalData : List Slice}

theorem propertyBlock_reads {files files' : FilesInfo} {seen seen' : UInt32} {tag : Property}
    {block : List UInt8} (hend : tag ≠ .END) (hseen : register seen tag = .ok seen')
    (hlen : block.length < 2 ^ 64)
    (hblock : ∀ a, (Window.within backing).mem ⟨a, block⟩ →
      FilesInfo.readProperty files tag ⟨a, block⟩ backing externalData = .ok files') :
    Reads (Window.within backing) (FilesInfo.turn backing externalData (files, seen))
      (propertyBytes tag.toU8 block) (.again (files', seen')) := by
  have hsize : (UInt64.ofNat block.length).toNat = block.length := UInt64.toNat_ofNat_of_lt' hlen
  rw [propertyBytes, List.append_assoc]
  refine (Property.parse_reads tag).bind ?_
  rw [if_neg hend, hseen]
  refine (Reads.pure seen').bind (e := []) ?_
  refine (sevenzipVaruint64Decode_reads (UInt64.ofNat block.length)).bind ?_
  rw [hsize]
  refine Reads.take_bind fun a rest hmem => ?_
  have hmem' : (Window.within backing).mem ⟨a, block⟩ := by
    have h := Window.within_take hmem block.length
    rwa [List.take_left'] at h
    rfl
  dsimp only
  rw [hblock a hmem']
  rfl

def optionalBlock (tag : Property) (block : Option (List UInt8)) : List UInt8 :=
  (block.map (propertyBytes tag.toU8)).getD []

theorem optionalBlock_reads {files files' result : FilesInfo} {seen : UInt32} {tag : Property}
    {tags : List Property} {block : Option (List UInt8)} {e : List UInt8} (hend : tag ≠ .END)
    (hfresh : Fresh seen (tag :: tags)) (hnot : tag ∉ tags)
    (hlen : (optionalBlock tag block ++ e).length < 2 ^ 64)
    (hblock : ∀ b, block = some b → ∀ a, (Window.within backing).mem ⟨a, b⟩ →
      FilesInfo.readProperty files tag ⟨a, b⟩ backing externalData = .ok files')
    (hnone : block = none → files' = files)
    (hrest : ∀ seen', Fresh seen' tags → Reads (Window.within backing)
      (loop (.error .eof) (FilesInfo.turn backing externalData) (files', seen')) e result) :
    Reads (Window.within backing)
      (loop (.error .eof) (FilesInfo.turn backing externalData) (files, seen))
      (optionalBlock tag block ++ e) result := by
  cases hb : block with
  | none =>
    rw [← hnone hb]
    exact hrest seen fun t ht => hfresh t (by simp [ht])
  | some b =>
    obtain ⟨seen', hseen, hfresh'⟩ := hfresh.register hnot
    have hb64 : b.length < 2 ^ 64 := by
      rw [hb] at hlen
      simp only [optionalBlock, propertyBytes, Option.map_some, Option.getD_some,
        List.length_append] at hlen
      omega
    exact Reads.loop_again (by simp [optionalBlock, propertyBytes])
      (propertyBlock_reads hend hseen hb64 (hblock b hb)) (hrest seen' hfresh')

end

/-! Bit vectors and values -/

theorem bitmap_optional (bits : List Bool) (i : ℕ) :
    bitmapIsSet (if bits.any id then boolsToBytes bits else []) i = bits.getD i false := by
  split
  · exact bitAt_packBits bits i
  · next h =>
    have hnone : bits.getD i false = false := by
      rw [List.getD_eq_getElem?_getD]
      cases hi : bits[i]? with
      | none => rfl
      | some b =>
        cases b with
        | false => rfl
        | true => exact absurd (List.any_eq_true.mpr ⟨true, List.mem_of_getElem? hi, rfl⟩) h
    rw [hnone]
    rfl

def valueBlock (width : ℕ) (values : List (Option ℕ)) : List UInt8 :=
  [if values.all Option.isSome then 1 else 0] ++
    (if values.all Option.isSome then [] else boolsToBytes (values.map Option.isSome)) ++ [0x00] ++
    (values.filterMap id).flatMap (toLeBytes width)

theorem flatMap_toLeBytes_length (width : ℕ) (values : List (Option ℕ)) :
    ((values.filterMap id).flatMap (toLeBytes width)).length =
      values.countP Option.isSome * width := by
  induction values with
  | nil => simp
  | cons v values ih =>
    cases v with
    | none => simpa only [List.filterMap_cons_none, id, List.countP_cons_of_neg, Option.isSome_none,
        Bool.false_eq_true, not_false_eq_true] using ih
    | some v =>
      have hcons : (some v :: values).filterMap id = v :: values.filterMap id := rfl
      rw [hcons, List.flatMap_cons, List.length_append, toLeBytes_length, ih,
        List.countP_cons_of_pos rfl, Nat.succ_mul, Nat.add_comm]

theorem writeValueProperty_eq (width : ℕ) (tag : Property) (values : List (Option ℕ)) :
    writeValueProperty width tag.toU8 values =
      optionalBlock tag (if values.any Option.isSome then some (valueBlock width values) else none) := by
  unfold writeValueProperty
  by_cases h : values.any Option.isSome
  · rw [if_neg (not_not_intro h), if_pos h]
    have hlen := flatMap_toLeBytes_length width values
    simp only [optionalBlock, Option.map_some, Option.getD_some, propertyBytes, valueBlock,
      List.length_append, List.length_singleton, hlen, List.append_assoc, Nat.add_assoc]
  · rw [if_pos h, if_neg h]
    rfl

section
variable {backing : Slice} {externalData : List Slice}

theorem propertyData_inline {a : ℕ} {data : List UInt8}
    (hmem : (Window.within backing).mem ⟨a, 0x00 :: data⟩) :
    propertyData ⟨a, 0x00 :: data⟩ backing externalData = .ok data := by
  have hdata : (Window.within backing).mem ⟨a + 1, data⟩ :=
    (Window.within backing).suffix hmem (e := [0x00]) ⟨rfl, rfl⟩
  change bytesSubslice backing ⟨a + 1, data⟩ = _
  exact bytesSubslice_within hdata

def writtenProperty (width : ℕ) (values : List (Option ℕ)) : DefinedProperty :=
  { allDefined := if values.all Option.isSome then 1 else 0
    bitmap := if values.all Option.isSome then [] else boolsToBytes (values.map Option.isSome)
    values := (values.filterMap id).flatMap (toLeBytes width) }

theorem definedProperty_parse {width a : ℕ} {values : List (Option ℕ)}
    (hmem : (Window.within backing).mem ⟨a, valueBlock width values⟩) :
    DefinedProperty.parse ⟨a, valueBlock width values⟩ values.length backing externalData =
      .ok (writtenProperty width values) := by
  set data := (values.filterMap id).flatMap (toLeBytes width) with hdata
  unfold valueBlock at hmem ⊢
  unfold writtenProperty
  rw [← hdata] at hmem ⊢
  cases hall : values.all Option.isSome with
  | true =>
    simp only [hall, if_true, List.append_nil] at hmem ⊢
    have hrest : (Window.within backing).mem ⟨a + 1, 0x00 :: data⟩ :=
      (Window.within backing).suffix hmem (e := [1]) ⟨rfl, rfl⟩
    change (do
      let values ← propertyData ⟨a + 1 + 0, 0x00 :: data⟩ backing externalData
      return { allDefined := 1, bitmap := [], values } : Except NomErr DefinedProperty) = _
    rw [Nat.add_zero, propertyData_inline hrest]
    rfl
  | false =>
    simp only [hall, Bool.false_eq_true, if_false] at hmem ⊢
    set bitmap := boolsToBytes (values.map Option.isSome) with hbitmap
    have hlen : bitmap.length = (values.length + 7) / 8 := by
      rw [hbitmap, boolsToBytes, packBits_length, List.length_map]
    have hrest : (Window.within backing).mem ⟨a + 1 + bitmap.length, 0x00 :: data⟩ := by
      have h := (Window.within backing).suffix hmem (e := [0] ++ bitmap)
        (r := ⟨a + 1 + bitmap.length, 0x00 :: data⟩) ⟨by simp, by simp; omega⟩
      exact h
    have htake : takeBytes ((values.length + 7) / 8) ⟨a + 1, bitmap ++ 0x00 :: data⟩ =
        .ok (⟨a + 1, bitmap⟩, ⟨a + 1 + bitmap.length, 0x00 :: data⟩) := by
      rw [← hlen]
      exact take_append _ _ _ _
    have hblock : [0] ++ bitmap ++ [0x00] ++ data = 0 :: (bitmap ++ 0x00 :: data) := by simp
    rw [hblock]
    change (takeBytes ((values.length + 7) / 8) ⟨a + 1, bitmap ++ 0x00 :: data⟩ >>= _) = _
    rw [htake]
    change (do
      let values ← propertyData ⟨a + 1 + bitmap.length, 0x00 :: data⟩ backing externalData
      return { allDefined := 0, bitmap, values } : Except NomErr DefinedProperty) = _
    rw [propertyData_inline hrest]
    rfl

theorem parseDefinedValues_written {α : Type} {p : NomParser α} {toNat : α → ℕ} {width : ℕ}
    (hp : ∀ v, Reads Window.all p (toLeBytes width (toNat v)) v) (values : List (Option α)) :
    parseDefinedValues p (writtenProperty width (values.map (Option.map toNat))) values.length =
      .ok values := by
  set written := values.map (Option.map toNat) with hwritten
  have hisSome (i : ℕ) : (written.map Option.isSome).getD i false = (values.getD i none).isSome := by
    rw [hwritten, List.getD_eq_getElem?_getD, List.getD_eq_getElem?_getD, List.getElem?_map,
      List.getElem?_map]
    cases values[i]? with
    | none => rfl
    | some v => cases v <;> rfl
  have hdefined : ∀ i < values.length, ((writtenProperty width written).allDefined ≠ 0 ||
      bitmapIsSet (writtenProperty width written).bitmap i) = (values.getD i none).isSome := by
    intro i hi
    unfold writtenProperty
    cases hall : written.all Option.isSome with
    | false =>
      rw [← hisSome i]
      simp only [Bool.false_eq_true, if_false, ne_eq, not_true_eq_false, decide_false, Bool.false_or]
      exact bitAt_packBits _ i
    | true =>
      have hsome : (written.map Option.isSome).getD i false = true := by
        have hi' : i < written.length := by rwa [hwritten, List.length_map]
        rw [List.getD_eq_getElem _ _ (by rwa [List.length_map]), List.getElem_map]
        exact List.all_eq_true.mp hall _ (List.getElem_mem hi')
      rw [← hisSome i, hsome]
      rfl
  have hdata : (written.filterMap id).flatMap (toLeBytes width) =
      (values.filterMap id).flatMap fun v => toLeBytes width (toNat v) := by
    rw [hwritten, List.filterMap_map, ← List.flatMap_map (fun v => toNat v) (toLeBytes width)]
    congr 1
    rw [List.map_filterMap]
    rfl
  have hread := Reads.optionals hdefined fun v _ => hp v
  rw [← hdata] at hread
  have h := hread 0 [] trivial
  rw [List.append_nil] at h
  unfold parseDefinedValues
  change (optionals _ p values.length ⟨0, (written.filterMap id).flatMap (toLeBytes width)⟩ >>= _) = _
  rw [h]
  rfl

end

/-! The whole section -/

def valuesOrNone {α : Type} (values : List (Option α)) : List (Option α) :=
  if values.any Option.isSome then values else []

theorem valuesOrNone_get {α : Type} (values : List (Option α)) (i : ℕ) :
    ((valuesOrNone values)[i]?).join = (values[i]?).join := by
  unfold valuesOrNone
  split
  · rfl
  · next h =>
    cases hi : values[i]? with
    | none => rfl
    | some v =>
      cases v with
      | none => rfl
      | some v => exact absurd (List.any_eq_true.mpr ⟨some v, List.mem_of_getElem? hi, rfl⟩) h

def emptyEntries (entries : List WriteEntry) : List WriteEntry :=
  entries.filter fun entry => !entry.stream.hasStream

def emptyBits (entries : List WriteEntry) : List Bool := entries.map fun entry => !entry.stream.hasStream

def kindBits (kind : Write.EntryKind) (entries : List WriteEntry) : List Bool :=
  (emptyEntries entries).map fun entry => entry.kind == kind

def bitsOrNone (bits : List Bool) : List UInt8 := if bits.any id then boolsToBytes bits else []

theorem any_imp_any_map {α : Type} {l : List α} {f : α → Bool} (h : (l.map f).any id) :
    ∃ a ∈ l, f a := by
  obtain ⟨b, hb, hbt⟩ := List.any_eq_true.mp h
  obtain ⟨a, ha, rfl⟩ := List.mem_map.mp hb
  exact ⟨a, ha, hbt⟩

def bitsBlock (bits : List Bool) : Option (List UInt8) :=
  if bits.any id then some (boolsToBytes bits) else none

/-- The three bit vectors are three optional blocks: without an entry that owns no stream the other
two have no bit to set. -/
theorem writeEmptyProperties_eq (entries : List WriteEntry) : writeEmptyProperties entries =
    optionalBlock .EmptyStream (bitsBlock (emptyBits entries)) ++
      (optionalBlock .EmptyFile (bitsBlock (kindBits .File entries)) ++
        optionalBlock .Anti (bitsBlock (kindBits .Anti entries))) := by
  have hblock (tag : Property) (bits : List Bool) : optionalBlock tag (bitsBlock bits) =
      if bits.any id then propertyBytes tag.toU8 (boolsToBytes bits) else [] := by
    unfold bitsBlock
    split <;> rfl
  have hkind (kind : Write.EntryKind) (h : ¬(emptyBits entries).any id) :
      ¬(kindBits kind entries).any id := by
    intro hany
    obtain ⟨e, he, _⟩ := any_imp_any_map hany
    obtain ⟨hmem, hempty⟩ := List.mem_filter.mp he
    exact h (List.any_eq_true.mpr ⟨_, List.mem_map_of_mem hmem, hempty⟩)
  unfold writeEmptyProperties
  rw [hblock, hblock, hblock]
  by_cases h : (emptyBits entries).any id
  · rw [if_pos h]
    exact if_neg (not_not_intro h) |>.trans (List.append_assoc ..)
  · rw [if_neg h, if_neg (hkind .File h), if_neg (hkind .Anti h)]
    exact if_pos h

theorem length_le_nameData (entries : List WriteEntry) : entries.length ≤ (nameData entries).length := by
  induction entries with
  | nil => exact le_rfl
  | cons e entries ih =>
    rw [nameData_cons, List.length_append, List.length_cons, List.length_cons, List.length_cons]
    omega

theorem writeU64Property_eq (tag : UInt8) (entries : List WriteEntry) (value : WriteEntry → Option UInt64) :
    writeU64Property tag entries value =
      writeValueProperty 8 tag ((entries.map value).map (Option.map UInt64.toNat)) := by
  rw [List.map_map]
  rfl

theorem writeU32Property_eq (tag : UInt8) (entries : List WriteEntry) (value : WriteEntry → Option UInt32) :
    writeU32Property tag entries value =
      writeValueProperty 4 tag ((entries.map value).map (Option.map UInt32.toNat)) := by
  rw [List.map_map]
  rfl

def ctimeValues (entries : List WriteEntry) : List (Option UInt64) :=
  entries.map fun e => e.metadata.ctime.map systemTimeToFiletime

def atimeValues (entries : List WriteEntry) : List (Option UInt64) :=
  entries.map fun e => e.metadata.atime.map systemTimeToFiletime

def mtimeValues (entries : List WriteEntry) : List (Option UInt64) :=
  entries.map fun e => e.metadata.mtime.map systemTimeToFiletime

def startPosValues (entries : List WriteEntry) : List (Option UInt64) :=
  entries.map fun e => e.metadata.startPos

def attributeValues (entries : List WriteEntry) : List (Option UInt32) :=
  entries.map fun e => e.metadata.attributes

def writtenFiles (entries : List WriteEntry) : FilesInfo :=
  { numFiles := UInt64.ofNat entries.length
    nameData := nameData entries
    ctimes := valuesOrNone (ctimeValues entries)
    atimes := valuesOrNone (atimeValues entries)
    mtimes := valuesOrNone (mtimeValues entries)
    startPositions := valuesOrNone (startPosValues entries)
    attributes := valuesOrNone (attributeValues entries)
    emptyStreams := bitsOrNone (emptyBits entries)
    emptyFiles := bitsOrNone (kindBits .File entries)
    antiItems := bitsOrNone (kindBits .Anti entries)
    emptyStreamOrdinals := emptyStreamOrdinals (bitsOrNone (emptyBits entries)) entries.length }

def propertyBlocks (entries : List WriteEntry) (emptyStreams emptyFiles anti : List Bool)
    (ctimes atimes mtimes startPositions : List (Option UInt64)) (attributes : List (Option UInt32)) :
    List UInt8 :=
  optionalBlock .EmptyStream (bitsBlock emptyStreams) ++
  (optionalBlock .EmptyFile (bitsBlock emptyFiles) ++
  (optionalBlock .Anti (bitsBlock anti) ++
  (optionalBlock .Name (some (0x00 :: nameData entries)) ++
  (writeValueProperty 8 Property.CTime.toU8 (ctimes.map (Option.map UInt64.toNat)) ++
  (writeValueProperty 8 Property.ATime.toU8 (atimes.map (Option.map UInt64.toNat)) ++
  (writeValueProperty 8 Property.MTime.toU8 (mtimes.map (Option.map UInt64.toNat)) ++
  (writeValueProperty 8 Property.StartPos.toU8 (startPositions.map (Option.map UInt64.toNat)) ++
  (writeValueProperty 4 Property.Attributes.toU8 (attributes.map (Option.map UInt32.toNat)) ++
    [0x00]))))))))

theorem writeFilesInfo_eq (entries : List WriteEntry) : writeFilesInfo entries =
    [0x05] ++ (varuint entries.length ++
      propertyBlocks entries (emptyBits entries) (kindBits .File entries) (kindBits .Anti entries)
        (ctimeValues entries) (atimeValues entries) (mtimeValues entries) (startPosValues entries)
        (attributeValues entries)) := by
  have hnames : writeNames entries = optionalBlock .Name (some (0x00 :: nameData entries)) := by
    simp only [writeNames, optionalBlock, propertyBytes, Option.map_some, Option.getD_some,
      List.length_cons, Nat.add_comm 1, List.append_assoc, List.cons_append, List.nil_append]
    rfl
  rw [writeFilesInfo, writeEmptyProperties_eq, hnames]
  simp only [writeTimeProperty, writeU64Property_eq, writeU32Property_eq, List.append_assoc]
  rfl

section
variable {backing : Slice} {externalData : List Slice}

def LoopReads (backing : Slice) (externalData : List Slice) (files : FilesInfo) (tags : List Property)
    (e : List UInt8) (result : FilesInfo) : Prop :=
  e.length < 2 ^ 64 → ∀ seen, Fresh seen tags → Reads (Window.within backing)
    (loop (.error .eof) (FilesInfo.turn backing externalData) (files, seen)) e result

theorem valueProperty_reads {α : Type} {p : NomParser α} {toNat : α → ℕ} {width : ℕ} {tag : Property}
    {tags : List Property} {e : List UInt8} {result : FilesInfo} (set : List (Option α) → FilesInfo)
    (values : List (Option α)) (hp : ∀ v, Reads Window.all p (toLeBytes width (toNat v)) v)
    (hend : tag ≠ .END) (hnot : tag ∉ tags)
    (hread : ∀ block, FilesInfo.readProperty (set []) tag block backing externalData = (do
      let property ← DefinedProperty.parse block values.length backing externalData
      let values ← parseDefinedValues p property values.length
      return set values))
    (hrest : LoopReads backing externalData (set (valuesOrNone values)) tags e result) :
    LoopReads backing externalData (set []) (tag :: tags)
      (writeValueProperty width tag.toU8 (values.map (Option.map toNat)) ++ e) result := by
  intro hlen seen hfresh
  have hany : (values.map (Option.map toNat)).any Option.isSome = values.any Option.isSome := by
    rw [List.any_map]
    congr 1
    funext v
    cases v <;> rfl
  have hparse := parseDefinedValues_written hp values
  rw [writeValueProperty_eq] at hlen ⊢
  refine optionalBlock_reads hend hfresh hnot hlen ?_ ?_
    (hrest (by rw [List.length_append] at hlen; omega))
  · intro b hb a hmem
    rw [hany] at hb
    split at hb
    · next hsome =>
      cases hb
      have hprop := @definedProperty_parse backing externalData _ _ _ hmem
      rw [List.length_map] at hprop
      rw [hread, hprop, valuesOrNone, if_pos hsome]
      change (do
        let values ← parseDefinedValues p _ values.length
        return set values : Except NomErr FilesInfo) = _
      rw [hparse]
      rfl
    · cases hb
  · intro hb
    rw [hany] at hb
    split at hb
    · cases hb
    · next hsome => rw [valuesOrNone, if_neg hsome]

theorem bitsProperty_reads {tag : Property} {tags : List Property} {e : List UInt8}
    {result : FilesInfo} (set : List UInt8 → FilesInfo) (bits : List Bool) (hend : tag ≠ .END)
    (hnot : tag ∉ tags)
    (hread : ∀ block, FilesInfo.readProperty (set []) tag block backing externalData = (do
      let bits ← bytesSubslice backing block
      return set bits))
    (hrest : LoopReads backing externalData (set (bitsOrNone bits)) tags e result) :
    LoopReads backing externalData (set []) (tag :: tags) (optionalBlock tag (bitsBlock bits) ++ e)
      result := by
  intro hlen seen hfresh
  refine optionalBlock_reads hend hfresh hnot hlen ?_ ?_
    (hrest (by rw [List.length_append] at hlen; omega))
  · intro b hb a hmem
    unfold bitsBlock at hb
    split at hb
    · next hany =>
      cases hb
      rw [hread, bytesSubslice_within hmem, bitsOrNone, if_pos hany]
      rfl
    · cases hb
  · intro hb
    unfold bitsBlock at hb
    split at hb
    · cases hb
    · next hany => rw [bitsOrNone, if_neg hany]

theorem names_reads {tags : List Property} {e : List UInt8} {result files : FilesInfo}
    {entries : List WriteEntry} (hnot : .Name ∉ tags) (hn : files.numFiles.toNat = entries.length)
    (hnames : ∀ e ∈ entries, UnitsWithoutNul (nameBytes e))
    (hrest : LoopReads backing externalData { files with nameData := nameData entries } tags e result) :
    LoopReads backing externalData files (.Name :: tags)
      (optionalBlock .Name (some (0x00 :: nameData entries)) ++ e) result := by
  intro hlen seen hfresh
  refine optionalBlock_reads (by decide) hfresh hnot hlen ?_ ?_
    (hrest (by rw [List.length_append] at hlen; omega))
  · intro b hb a hmem
    cases hb
    have hvalid : validateNameData (nameData entries) files.numFiles.toNat = .ok () := by
      rw [validateNameData, hn, if_pos (skipNames_nameData hnames)]
    simp only [FilesInfo.readProperty, propertyData_inline hmem]
    change (do
      validateNameData (nameData entries) files.numFiles.toNat
      return { files with nameData := nameData entries } : Except NomErr FilesInfo) = _
    rw [hvalid]
    rfl
  · intro hb
    cases hb

/-- The blocks in the order they are written, read from the last to the first: each step adds one
property to the record. -/
theorem properties_read {entries : List WriteEntry} {n : UInt64} (emptyStreams emptyFiles anti : List Bool)
    {ctimes atimes mtimes startPositions : List (Option UInt64)} {attributes : List (Option UInt32)}
    (hn : n.toNat = entries.length) (hnames : ∀ e ∈ entries, UnitsWithoutNul (nameBytes e))
    (hctimes : ctimes.length = n.toNat) (hatimes : atimes.length = n.toNat)
    (hmtimes : mtimes.length = n.toNat) (hstart : startPositions.length = n.toNat)
    (hattributes : attributes.length = n.toNat) :
    LoopReads backing externalData (FilesInfo.empty n)
      [.EmptyStream, .EmptyFile, .Anti, .Name, .CTime, .ATime, .MTime, .StartPos, .Attributes]
      (propertyBlocks entries emptyStreams emptyFiles anti ctimes atimes mtimes startPositions attributes)
      { numFiles := n, nameData := nameData entries, ctimes := valuesOrNone ctimes,
        atimes := valuesOrNone atimes, mtimes := valuesOrNone mtimes,
        startPositions := valuesOrNone startPositions, attributes := valuesOrNone attributes,
        emptyStreams := bitsOrNone emptyStreams, emptyFiles := bitsOrNone emptyFiles,
        antiItems := bitsOrNone anti, emptyStreamOrdinals := [] } := by
  refine bitsProperty_reads (fun bits => { FilesInfo.empty n with emptyStreams := bits })
    emptyStreams (by decide) (by decide) (fun _ => rfl) ?_
  refine bitsProperty_reads (fun bits =>
    { FilesInfo.empty n with emptyStreams := bitsOrNone emptyStreams, emptyFiles := bits })
    emptyFiles (by decide) (by decide) (fun _ => rfl) ?_
  refine bitsProperty_reads (fun bits =>
    { FilesInfo.empty n with emptyStreams := bitsOrNone emptyStreams,
                             emptyFiles := bitsOrNone emptyFiles, antiItems := bits })
    anti (by decide) (by decide) (fun _ => rfl) ?_
  refine names_reads (by decide) hn hnames ?_
  dsimp only
  -- From here on every property is a list of values, set in the record named by its reader.
  refine valueProperty_reads (fun values =>
    { FilesInfo.empty n with nameData := nameData entries, ctimes := values,
                             emptyStreams := bitsOrNone emptyStreams,
                             emptyFiles := bitsOrNone emptyFiles, antiItems := bitsOrNone anti })
    ctimes leU64_reads (by decide) (by decide) (fun _ => by rw [hctimes]; rfl) ?_
  refine valueProperty_reads (fun values =>
    { FilesInfo.empty n with nameData := nameData entries, ctimes := valuesOrNone ctimes,
                             atimes := values, emptyStreams := bitsOrNone emptyStreams,
                             emptyFiles := bitsOrNone emptyFiles, antiItems := bitsOrNone anti })
    atimes leU64_reads (by decide) (by decide) (fun _ => by rw [hatimes]; rfl) ?_
  refine valueProperty_reads (fun values =>
    { FilesInfo.empty n with nameData := nameData entries, ctimes := valuesOrNone ctimes,
                             atimes := valuesOrNone atimes, mtimes := values,
                             emptyStreams := bitsOrNone emptyStreams,
                             emptyFiles := bitsOrNone emptyFiles, antiItems := bitsOrNone anti })
    mtimes leU64_reads (by decide) (by decide) (fun _ => by rw [hmtimes]; rfl) ?_
  refine valueProperty_reads (fun values =>
    { FilesInfo.empty n with nameData := nameData entries, ctimes := valuesOrNone ctimes,
                             atimes := valuesOrNone atimes, mtimes := valuesOrNone mtimes,
                             startPositions := values, emptyStreams := bitsOrNone emptyStreams,
                             emptyFiles := bitsOrNone emptyFiles, antiItems := bitsOrNone anti })
    startPositions leU64_reads (by decide) (by decide) (fun _ => by rw [hstart]; rfl) ?_
  refine valueProperty_reads (fun values =>
    { FilesInfo.empty n with nameData := nameData entries, ctimes := valuesOrNone ctimes,
                             atimes := valuesOrNone atimes, mtimes := valuesOrNone mtimes,
                             startPositions := valuesOrNone startPositions, attributes := values,
                             emptyStreams := bitsOrNone emptyStreams,
                             emptyFiles := bitsOrNone emptyFiles, antiItems := bitsOrNone anti })
    attributes leU32_reads (by decide) (by decide) (fun _ => by rw [hattributes]; rfl) ?_
  exact fun _ seen _ => Reads.loop_done (by simp) ((Property.parse_reads .END).bind_nil (Reads.pure _))

end

theorem length_le_writeFilesInfo (entries : List WriteEntry) :
    entries.length ≤ (writeFilesInfo entries).length := by
  have := length_le_nameData entries
  simp only [writeFilesInfo, writeNames, List.length_append]
  omega

theorem writeFilesInfo_reads {entries : List WriteEntry} {backing : Slice} {externalData : List Slice}
    (hnames : ∀ e ∈ entries, UnitsWithoutNul (nameBytes e))
    (hlen : (writeFilesInfo entries).length < 2 ^ 64) :
    Reads (Window.within backing) (FilesInfo.parseWithExternal backing externalData)
      (writeFilesInfo entries) (writtenFiles entries) := by
  have hentries : (UInt64.ofNat entries.length).toNat = entries.length :=
    UInt64.toNat_ofNat_of_lt' (lt_of_le_of_lt (length_le_writeFilesInfo entries) hlen)
  have hctimes : (ctimeValues entries).length = (UInt64.ofNat entries.length).toNat := by
    rw [ctimeValues, List.length_map, hentries]
  have hatimes : (atimeValues entries).length = (UInt64.ofNat entries.length).toNat := by
    rw [atimeValues, List.length_map, hentries]
  have hmtimes : (mtimeValues entries).length = (UInt64.ofNat entries.length).toNat := by
    rw [mtimeValues, List.length_map, hentries]
  have hstart : (startPosValues entries).length = (UInt64.ofNat entries.length).toNat := by
    rw [startPosValues, List.length_map, hentries]
  have hattributes : (attributeValues entries).length = (UInt64.ofNat entries.length).toNat := by
    rw [attributeValues, List.length_map, hentries]
  rw [writeFilesInfo_eq] at hlen ⊢
  refine (expectProperty_reads .FilesInfo).bind ?_
  refine (sevenzipVaruint64Decode_reads (UInt64.ofNat entries.length)).bind ?_
  refine (properties_read (emptyBits entries) (kindBits .File entries) (kindBits .Anti entries) hentries
    hnames hctimes hatimes hmtimes hstart hattributes ?_ 0 ?_).bind_nil ?_
  · rw [List.length_append, List.length_append] at hlen
    omega
  · intro tag _
    cases propertyMask tag with
    | none => trivial
    | some mask => exact UInt32.zero_and
  · rw [hentries]
    exact Reads.pure _

/-! What the record says of each entry -/

theorem filter_get_countP {α : Type} {p : α → Bool} : ∀ {l : List α} {i : ℕ} {a : α},
    l[i]? = some a → p a → (l.filter p)[(l.take i).countP p]? = some a
  | [], _, _, hi, _ => nomatch hi
  | b :: l, 0, a, hi, ha => by
    cases Option.some.inj hi
    rw [List.filter_cons_of_pos ha]
    rfl
  | b :: l, i + 1, a, hi, ha => by
    have ih := filter_get_countP (l := l) (i := i) hi ha
    rw [List.take_succ_cons]
    by_cases hb : p b
    · rw [List.filter_cons_of_pos hb, List.countP_cons_of_pos hb, List.getElem?_cons_succ, ih]
    · rw [List.filter_cons_of_neg hb, List.countP_cons_of_neg hb, ih]

theorem ordinalsFrom_get {emptyStreams : List UInt8} {p : WriteEntry → Bool} :
    ∀ {entries : List WriteEntry} {start nextEmpty : ℕ} {i : ℕ} {e : WriteEntry},
    (∀ j, bitmapIsSet emptyStreams (start + j) = (entries.map p).getD j false) → entries[i]? = some e →
      (ordinalsFrom emptyStreams (List.range' start entries.length) nextEmpty)[i]? =
        some (if p e then some (nextEmpty + (entries.take i).countP p) else none)
  | [], _, _, _, _, _, hi => nomatch hi
  | e :: entries, start, nextEmpty, i, e', hbit, hi => by
    have hhead : bitmapIsSet emptyStreams start = p e := hbit 0
    have htail (j : ℕ) : bitmapIsSet emptyStreams (start + 1 + j) = (entries.map p).getD j false := by
      rw [Nat.add_assoc, Nat.add_comm 1, hbit (j + 1)]
      rfl
    rw [List.length_cons, List.range'_succ, ordinalsFrom, hhead]
    cases i with
    | zero =>
      cases Option.some.inj hi
      cases p e <;> rfl
    | succ i =>
      rw [List.take_succ_cons]
      cases hp : p e with
      | true =>
        rw [if_pos rfl, List.getElem?_cons_succ, ordinalsFrom_get htail hi, List.countP_cons_of_pos hp]
        congr 3
        omega
      | false =>
        rw [if_neg Bool.false_ne_true, List.getElem?_cons_succ, ordinalsFrom_get htail hi,
          List.countP_cons_of_neg (Bool.not_eq_true _ ▸ hp)]

def listedKind (entry : WriteEntry) : R7z.EntryKind Unit :=
  if entry.stream.hasStream then .file ()
  else match entry.kind with
    | .File => .emptyFile
    | .Directory => .directory
    | .Anti => .anti

section
variable {entries : List WriteEntry} {i : ℕ} {entry : WriteEntry} (hi : entries[i]? = some entry)
include hi

theorem writtenFiles_isEmptyStream :
    (writtenFiles entries).isEmptyStream i = !entry.stream.hasStream := by
  change bitmapIsSet (if (emptyBits entries).any id then boolsToBytes (emptyBits entries) else []) i = _
  rw [bitmap_optional, List.getD_eq_getElem?_getD, emptyBits, List.getElem?_map, hi]
  rfl

theorem writtenFiles_emptyStreamOrdinal : (writtenFiles entries).emptyStreamOrdinal i =
    if entry.stream.hasStream then none
    else some ((entries.take i).countP fun entry => !entry.stream.hasStream) := by
  have hbit (j : ℕ) : bitmapIsSet (bitsOrNone (emptyBits entries)) (0 + j) =
      (entries.map fun entry => !entry.stream.hasStream).getD j false := by
    rw [Nat.zero_add]
    exact bitmap_optional _ j
  have hget : (ordinalsFrom _ (List.range' 0 entries.length) 0)[i]? = _ := ordinalsFrom_get hbit hi
  change ((ordinalsFrom _ (List.range entries.length) 0)[i]?).join = _
  rw [List.range_eq_range', hget]
  cases entry.stream.hasStream with
  | true => rfl
  | false => exact congrArg some (Nat.zero_add _)

theorem writtenFiles_kindBit (kind : Write.EntryKind) :
    (match (writtenFiles entries).emptyStreamOrdinal i with
      | none => false
      | some emptyIdx => bitmapIsSet (bitsOrNone (kindBits kind entries)) emptyIdx) =
    (!entry.stream.hasStream && entry.kind == kind) := by
  rw [writtenFiles_emptyStreamOrdinal hi]
  cases hstream : entry.stream.hasStream with
  | true => rfl
  | false =>
    have hget := filter_get_countP (p := fun entry : WriteEntry => !entry.stream.hasStream) hi
      (by rw [hstream]; rfl)
    change bitmapIsSet (if (kindBits kind entries).any id then _ else []) _ = _
    rw [bitmap_optional, List.getD_eq_getElem?_getD, kindBits, emptyEntries, List.getElem?_map, hget]
    rfl

theorem writtenFiles_entryKind (hmode : FilesInfo.hasSymlinkMode entry.metadata.attributes = false) :
    (writtenFiles entries).entryKind i = listedKind entry := by
  have hsymlink : (writtenFiles entries).isSymlink i = false := by
    have hattributes : (attributeValues entries)[i]? = some entry.metadata.attributes := by
      rw [attributeValues, List.getElem?_map, hi]
      rfl
    change FilesInfo.hasSymlinkMode ((valuesOrNone (attributeValues entries))[i]?).join = false
    rw [valuesOrNone_get, hattributes]
    exact hmode
  have hanti : (writtenFiles entries).isAnti i = (!entry.stream.hasStream && entry.kind == .Anti) :=
    writtenFiles_kindBit hi .Anti
  have hfile : (writtenFiles entries).isEmptyFile i = (!entry.stream.hasStream && entry.kind == .File) :=
    writtenFiles_kindBit hi .File
  rw [FilesInfo.entryKind, hanti, hfile, hsymlink, writtenFiles_isEmptyStream hi, listedKind]
  cases entry.stream.hasStream <;> cases entry.kind <;> rfl

end

/-- What a header says of an entry at an index, names as the units between two terminators. -/
structure ListedAs (files : FilesInfo) (i : ℕ) (entry : WriteEntry) : Prop where
  name : files.nameSlices[i]? =
    some (some ((entry.rawName.map RawEntryName.asUtf16le).getD (utf16le entry.name)))
  ctime : (files.ctimes[i]?).join = entry.metadata.ctime.map systemTimeToFiletime
  atime : (files.atimes[i]?).join = entry.metadata.atime.map systemTimeToFiletime
  mtime : (files.mtimes[i]?).join = entry.metadata.mtime.map systemTimeToFiletime
  startPos : (files.startPositions[i]?).join = entry.metadata.startPos
  attributes : (files.attributes[i]?).join = entry.metadata.attributes
  kind : FilesInfo.hasSymlinkMode entry.metadata.attributes = false →
    files.entryKind i = listedKind entry

theorem writtenFiles_listedAs {entries : List WriteEntry} (hcount : entries.length < 2 ^ 64)
    (hnames : ∀ e ∈ entries, UnitsWithoutNul (nameBytes e)) {i : ℕ} {entry : WriteEntry}
    (hi : entries[i]? = some entry) : ListedAs (writtenFiles entries) i entry where
  name := by
    have hn : (UInt64.ofNat entries.length).toNat = entries.length := UInt64.toNat_ofNat_of_lt' hcount
    change (nameSlicesFrom (UInt64.ofNat entries.length).toNat (nameData entries))[i]? = _
    rw [hn, nameSlicesFrom_nameData hnames, List.getElem?_map, hi]
    change some (some (nameBytes entry)) = _
    unfold nameBytes
    cases entry.rawName <;> rfl
  ctime := by
    change ((valuesOrNone (ctimeValues entries))[i]?).join = _
    rw [valuesOrNone_get, ctimeValues, List.getElem?_map, hi]
    rfl
  atime := by
    change ((valuesOrNone (atimeValues entries))[i]?).join = _
    rw [valuesOrNone_get, atimeValues, List.getElem?_map, hi]
    rfl
  mtime := by
    change ((valuesOrNone (mtimeValues entries))[i]?).join = _
    rw [valuesOrNone_get, mtimeValues, List.getElem?_map, hi]
    rfl
  startPos := by
    change ((valuesOrNone (startPosValues entries))[i]?).join = _
    rw [valuesOrNone_get, startPosValues, List.getElem?_map, hi]
    rfl
  attributes := by
    change ((valuesOrNone (attributeValues entries))[i]?).join = _
    rw [valuesOrNone_get, attributeValues, List.getElem?_map, hi]
    rfl
  kind := writtenFiles_entryKind hi

/-- The written section is read to its last byte, wherever it lies in a buffer, and says of every
entry what was written. -/
theorem writeFilesInfo_round_trip {entries : List WriteEntry} {backing : Slice}
    {externalData : List Slice} {a : ℕ} {rest : List UInt8}
    (hnames : ∀ e ∈ entries, e.rawName = none → (0 : UInt16) ∉ encodeUtf16 e.name)
    (hlen : (writeFilesInfo entries).length < 2 ^ 64)
    (hmem : (Window.within backing).mem ⟨a, writeFilesInfo entries ++ rest⟩) :
    ∃ files, FilesInfo.parseWithExternal backing externalData ⟨a, writeFilesInfo entries ++ rest⟩ =
        .ok (files, ⟨a + (writeFilesInfo entries).length, rest⟩) ∧
      files.numFiles.toNat = entries.length ∧
      ∀ i entry, entries[i]? = some entry → ListedAs files i entry := by
  have hvalid : ∀ e ∈ entries, UnitsWithoutNul (nameBytes e) := fun e he => nameBytes_valid (hnames e he)
  have hcount := lt_of_le_of_lt (length_le_writeFilesInfo entries) hlen
  exact ⟨writtenFiles entries, writeFilesInfo_reads hvalid hlen a rest hmem,
    UInt64.toNat_ofNat_of_lt' hcount, fun _ _ hi => writtenFiles_listedAs hcount hvalid hi⟩

def mixedEntries : List WriteEntry :=
  [{ name := "a", rawName := none, kind := .File, metadata := { EntryMeta.default with startPos := some 7 },
     stream := .Buffered [1], folderId := 0 },
   { name := "d", rawName := none, kind := .Directory,
     metadata := { EntryMeta.default with attributes := some 0x10 }, stream := .Empty, folderId := 0 },
   { name := "x", rawName := none, kind := .Anti, metadata := EntryMeta.default, stream := .Empty,
     folderId := 0 }]

theorem writeFilesInfo_round_trip_mixed :
    ∃ files, FilesInfo.parseWithExternal ⟨0, writeFilesInfo mixedEntries ++ []⟩ []
          ⟨0, writeFilesInfo mixedEntries ++ []⟩ =
        .ok (files, ⟨0 + (writeFilesInfo mixedEntries).length, []⟩) ∧
      files.numFiles.toNat = mixedEntries.length ∧
      ∀ i entry, mixedEntries[i]? = some entry → ListedAs files i entry :=
  writeFilesInfo_round_trip (by decide) (by decide) (Window.within_self _)

end R7z
