import R7z.WriterNames
import R7z.CoderLists
import R7z.Write.Options

/-! Options that the writer accepts give coders that the reader accepts, as long as the dictionary or the
memory stays within the caps of the decoders; what the coders announce is at least what was used. -/

namespace R7z

open Wire

namespace Options

/-- What the codecs say of themselves: the bits of every preset, the property byte of parameters within
their ranges, and the memory of the decoders, which is that of the dictionary and of at most 8 MiB
besides. -/
structure Codecs.Documented (codecs : Codecs) (memory : DecoderMemory) : Prop where
  bits : ∀ preset ≤ 9, (codecs.withPreset preset).lc = 3 ∧ (codecs.withPreset preset).lp = 0 ∧
    (codecs.withPreset preset).pb = 2
  props : ∀ options : LzmaOptions, options.lc ≤ 8 → options.lp ≤ 4 → options.pb ≤ 4 →
    (codecs.props options).toNat = (options.pb.toNat * 5 + options.lp.toNat) * 9 + options.lc.toNat
  lzma : ∀ (dictionary : UInt32) (props : UInt8), dictionary.toNat ≤ MAX_LZMA_DICTIONARY_BYTES →
    props ≤ 224 → ∃ kib, memory.lzma dictionary props = some kib ∧
      kib.toNat ≤ dictionary.toNat / 1024 + 8192
  lzma2 : ∀ dictionary : UInt32, dictionary.toNat ≤ MAX_LZMA_DICTIONARY_BYTES →
    (memory.lzma2 dictionary).toNat ≤ dictionary.toNat / 1024 + 8192

/-! What validation leaves -/

section
variable {codecs : Codecs} {options : ArchiveOptions} {prepared : Write.PreparedArchiveOptions}

theorem CompressionLevel.preset_le (level : CompressionLevel) : level.preset ≤ 9 := by
  cases level <;> decide

theorem levelOptions_bits (level : CompressionLevel) (options : LzmaOptions) :
    (levelOptions level options).lc = options.lc ∧ (levelOptions level options).lp = options.lp ∧
      (levelOptions level options).pb = options.pb := by
  cases level <;> exact ⟨rfl, rfl, rfl⟩

theorem lzmaOptions_bits {memory : DecoderMemory} (hcodecs : codecs.Documented memory)
    {compression : CompressionOptions} {u : Unit} (h : validateLzmaPropertyBits compression = .ok u) :
    (lzmaOptions codecs compression).lc ≤ 8 ∧ (lzmaOptions codecs compression).lp ≤ 4 ∧
      (lzmaOptions codecs compression).pb ≤ 4 := by
  obtain ⟨hlc, hlp, hpb⟩ := levelOptions_bits compression.level
    (codecs.withPreset compression.level.preset)
  obtain ⟨hlc', hlp', hpb'⟩ := hcodecs.bits _ compression.level.preset_le
  obtain ⟨_, hlcMax, h⟩ := except_bind_eq_ok.mp h
  obtain ⟨_, hlpMax, h⟩ := except_bind_eq_ok.mp h
  obtain ⟨_, hpbMax, -⟩ := except_bind_eq_ok.mp h
  unfold lzmaOptions
  dsimp only
  rw [hlc, hlp, hpb, hlc', hlp', hpb']
  exact ⟨UInt32.not_lt.mp (of_decide_eq_false (reject_eq_ok.mp hlcMax)),
    UInt32.not_lt.mp (of_decide_eq_false (reject_eq_ok.mp hlpMax)),
    UInt32.not_lt.mp (of_decide_eq_false (reject_eq_ok.mp hpbMax))⟩

theorem props_le {memory : DecoderMemory} (hcodecs : codecs.Documented memory)
    {compression : CompressionOptions} {u : Unit} (h : validateLzmaPropertyBits compression = .ok u) :
    codecs.props (lzmaOptions codecs compression) ≤ 224 := by
  obtain ⟨hlc, hlp, hpb⟩ := lzmaOptions_bits hcodecs h
  rw [UInt8.le_iff_toNat_le, hcodecs.props _ hlc hlp hpb]
  rw [UInt32.le_iff_toNat_le] at hlc hlp hpb
  have hlc' : (lzmaOptions codecs compression).lc.toNat ≤ 8 := hlc
  have hlp' : (lzmaOptions codecs compression).lp.toNat ≤ 4 := hlp
  have hpb' : (lzmaOptions codecs compression).pb.toNat ≤ 4 := hpb
  show _ ≤ 224
  omega

theorem validateArchiveOptions_propertyBits {settings : PreparedSettings}
    (h : validateArchiveOptions codecs options = .ok settings) :
    ∃ u, validateLzmaPropertyBits options.compression = .ok u := by
  obtain ⟨codec, h, -⟩ := except_bind_eq_ok.mp h
  unfold validateCompressionOptions at h
  iterate 4 obtain ⟨_, -, h⟩ := except_bind_eq_ok.mp h
  obtain ⟨order, -, h⟩ := except_bind_eq_ok.mp h
  iterate 2 obtain ⟨_, -, h⟩ := except_bind_eq_ok.mp h
  obtain ⟨u, hbits, -⟩ := except_bind_eq_ok.mp h
  exact ⟨u, hbits⟩

theorem prepareArchiveOptions_eq_ok (h : prepareArchiveOptions codecs options = .ok prepared) :
    ∃ settings, validateArchiveOptions codecs options = .ok settings ∧
      prepared.codec = settings.codec ∧
      prepared.dictSize = (lzmaOptions codecs options.compression).dictSize ∧
      prepared.solid = options.compression.solid := by
  unfold prepareArchiveOptions at h
  split at h
  · cases h
  · next settings hsettings =>
    obtain rfl := Except.ok.inj h
    exact ⟨settings, hsettings, rfl, rfl, rfl⟩

end

end Options

/-! What coders announce -/

def lzma2Size (n : ℕ) : ℕ := (2 + n % 2) * 2 ^ (n / 2 + 11)

def lzma2Announced (property : UInt8) : ℕ :=
  if property = 40 then 2 ^ 32 - 1 else lzma2Size property.toNat

theorem lzma2Size_le {n : ℕ} (h : n ≤ 32) : lzma2Size n ≤ MAX_LZMA_DICTIONARY_BYTES := by
  have hall : ∀ n : Fin 33, lzma2Size n ≤ MAX_LZMA_DICTIONARY_BYTES := by decide
  exact hall ⟨n, Nat.lt_succ_of_le h⟩

def announcedMemory (coder : CoderInfo) : Option ℕ :=
  match methodFromId coder.codecId.bytes, coder.properties with
  | some .Lzma, some [_, a, b, c, d] => some (fromLeBytes a b c d).toNat
  | some .Ppmd, some [_, a, b, c, d] => some (fromLeBytes a b c d).toNat
  | some .Lzma2, some [property] => some (lzma2Announced property)
  | _, _ => none

def Write.PreparedArchiveOptions.usedMemory (prepared : Write.PreparedArchiveOptions) : Option ℕ :=
  match prepared.codec with
  | .Copy => none
  | .Lzma | .Lzma2 | .Lzma2Bcj => some prepared.dictSize.toNat
  | .Ppmd _ memorySize => some memorySize.toNat

theorem encodeLzma2DictSize_spec {dictSize : UInt32} {property : UInt8}
    (h : Write.encodeLzma2DictSize dictSize = .ok property) :
    property ≤ 40 ∧ dictSize.toNat ≤ lzma2Announced property ∧
      (dictSize.toNat ≤ MAX_LZMA_DICTIONARY_BYTES ↔ property ≤ 32) := by
  unfold Write.encodeLzma2DictSize at h
  split at h
  · cases h
  split at h
  · next hmax =>
    obtain rfl := Except.ok.inj h
    rw [hmax]
    decide
  dsimp only at h
  split at h
  · next n hfind =>
    obtain rfl := Except.ok.inj h
    obtain ⟨hholds, hmem, hfirst⟩ := List.find?_range_eq_some.mp hfind
    have hsize : dictSize.toNat ≤ lzma2Size n := of_decide_eq_true hholds
    have hlt := List.mem_range.mp hmem
    have htoNat : (UInt8.ofNat n).toNat = n := UInt8.toNat_ofNat_of_lt' (hlt.trans (by decide))
    have hne : UInt8.ofNat n ≠ 40 := fun h => by
      rw [h] at htoNat
      exact absurd hlt (htoNat ▸ by decide)
    refine ⟨UInt8.le_iff_toNat_le.mpr (htoNat.symm ▸ hlt.le), ?_, fun hle => ?_, fun hle => ?_⟩
    · rw [lzma2Announced, if_neg hne, htoNat]
      exact hsize
    · -- the first number that holds is no later than that of the cap itself
      rw [UInt8.le_iff_toNat_le, htoNat]
      by_contra hgt
      have hcap := hfirst 32 (Nat.not_le.mp hgt)
      rw [Bool.not_eq_true', decide_eq_false_iff_not] at hcap
      exact hcap hle
    · rw [UInt8.le_iff_toNat_le, htoNat] at hle
      exact hsize.trans (lzma2Size_le hle)
  · cases h

theorem lzma2DictSize_eq {property : UInt8} (h : property ≤ 40) :
    if property ≤ 32 then
      ∃ dictionary, lzma2DictSize (some [property]) = .ok dictionary ∧
        dictionary.toNat = lzma2Announced property ∧ dictionary.toNat ≤ MAX_LZMA_DICTIONARY_BYTES
    else lzma2DictSize (some [property]) =
      .error (resourceLimit "LZMA dictionary" MAX_LZMA_DICTIONARY_BYTES) := by
  have hall : ∀ n : Fin 33, lzma2DictSize (some [UInt8.ofNat n]) = .ok (UInt32.ofNat (lzma2Size n)) ∧
      (UInt32.ofNat (lzma2Size n)).toNat = lzma2Announced (UInt8.ofNat n) := by
    decide +kernel
  have hcapped : ∀ n : Fin 256, 32 < UInt8.ofFin n → UInt8.ofFin n ≤ 40 →
      lzma2DictSize (some [UInt8.ofFin n]) =
        .error (resourceLimit "LZMA dictionary" MAX_LZMA_DICTIONARY_BYTES) := by
    decide +kernel
  split
  · next hle =>
    have hlt : property.toNat < 33 := Nat.lt_succ_of_le (UInt8.le_iff_toNat_le.mp hle)
    obtain ⟨hdict, hannounced⟩ := hall ⟨property.toNat, hlt⟩
    rw [UInt8.ofNat_toNat] at hdict hannounced
    refine ⟨_, hdict, hannounced, ?_⟩
    rw [hannounced, lzma2Announced, if_neg (fun hforty : property = 40 => absurd hle (hforty ▸ by decide))]
    exact lzma2Size_le (Nat.lt_succ_iff.mp hlt)
  · next hgt => exact hcapped property.toFin (UInt8.not_le.mp hgt) h

/-! What the reader makes of the coders -/

def compileCoders (memory : DecoderMemory) : List CoderInfo → List UInt64 → Except R7zError (List CoderPlan)
  | coder :: coders, size :: sizes => do
    let plan ← CoderPlan.compile memory coder (.Known size)
    let plans ← compileCoders memory coders sizes
    return plan :: plans
  | _, _ => .ok []

structure CodersAccepted (memory : DecoderMemory) (coders : List CoderInfo) (sizes : List UInt64)
    (plans : List CoderPlan) (sets : List ℕ) : Prop where
  compiles : compileCoders memory coders sizes = .ok plans
  workingSets : plans.mapM (CoderPlan.workingSet memory) = .ok sets

section
variable {memory : DecoderMemory} {coder : CoderInfo} {coders : List CoderInfo} {size : UInt64}
  {sizes : List UInt64} {plan : CoderPlan} {plans : List CoderPlan} {set : ℕ} {sets : List ℕ}

theorem CodersAccepted.nil : CodersAccepted memory [] [] [] [] := ⟨rfl, rfl⟩

theorem CodersAccepted.cons (hplan : CoderPlan.compile memory coder (.Known size) = .ok plan)
    (hset : plan.workingSet memory = .ok set) (h : CodersAccepted memory coders sizes plans sets) :
    CodersAccepted memory (coder :: coders) (size :: sizes) (plan :: plans) (set :: sets) := by
  refine ⟨?_, ?_⟩
  · show (CoderPlan.compile memory coder (.Known size) >>= _) = _
    rw [hplan]
    show (compileCoders memory coders sizes >>= _) = _
    rw [h.compiles]
    rfl
  · rw [List.mapM_cons, hset]
    show (plans.mapM (CoderPlan.workingSet memory) >>= _) = _
    rw [h.workingSets]
    rfl

theorem compileCoders_refused {e : R7zError}
    (hplan : CoderPlan.compile memory coder (.Known size) = .error e) :
    compileCoders memory (coder :: coders) (size :: sizes) = .error e := by
  show (CoderPlan.compile memory coder (.Known size) >>= _) = _
  rw [hplan]
  rfl

theorem compileCoders_refused_after {e : R7zError}
    (hplan : CoderPlan.compile memory coder (.Known size) = .ok plan)
    (h : compileCoders memory coders sizes = .error e) :
    compileCoders memory (coder :: coders) (size :: sizes) = .error e := by
  show (CoderPlan.compile memory coder (.Known size) >>= _) = _
  rw [hplan]
  show (compileCoders memory coders sizes >>= _) = _
  rw [h]
  rfl

end

def CODEC_WORKING_SET_BYTES : ℕ := (MAX_LZMA_DICTIONARY_BYTES / 1024 + 8192) * 1024 + DECODER_OVERHEAD_BYTES

theorem workingSetDecoder_le {kib : UInt32} {dictionary : ℕ} (hdict : dictionary ≤ MAX_LZMA_DICTIONARY_BYTES)
    (h : kib.toNat ≤ dictionary / 1024 + 8192) :
    ∃ set, workingSetDecoder kib = .ok set ∧ set ≤ CODEC_WORKING_SET_BYTES := by
  have hkib : kib.toNat ≤ MAX_LZMA_DICTIONARY_BYTES / 1024 + 8192 :=
    h.trans (Nat.add_le_add_right (Nat.div_le_div_right hdict) _)
  have hset : kib.toNat * 1024 + DECODER_OVERHEAD_BYTES ≤ CODEC_WORKING_SET_BYTES :=
    Nat.add_le_add_right (Nat.mul_le_mul_right _ hkib) _
  refine ⟨_, if_pos (hset.trans_lt (by decide)), hset⟩

section
variable {codecs : Options.Codecs} {memory : DecoderMemory} {size : UInt64}

open Write (CoderSpec)

/-- How a coder with that much memory is read: as a plan of that memory that can be run, or as one
beyond the caps. -/
def ReadWithin (memory : DecoderMemory) (coder : CoderInfo) (size : UInt64) (used : ℕ) : Prop :=
  if used ≤ MAX_LZMA_DICTIONARY_BYTES then
    ∃ plan set announced, CoderPlan.compile memory coder (.Known size) = .ok plan ∧
      plan.announced = some announced ∧ used ≤ announced ∧ plan.workingSet memory = .ok set ∧
      set ≤ CODEC_WORKING_SET_BYTES
  else ∃ resource, CoderPlan.compile memory coder (.Known size) =
    .error (resourceLimit resource MAX_LZMA_DICTIONARY_BYTES)

theorem lzma_readWithin (hcodecs : codecs.Documented memory) {props : UInt8} (hprops : props ≤ 224)
    (dictSize : UInt32) :
    ReadWithin memory (CoderSpec.Lzma (props :: toLeBytes 4 dictSize.toNat)).coderInfo size
      dictSize.toNat := by
  obtain ⟨a, b, c, d, hbytes, hvalue⟩ := toLeBytes_four dictSize
  have hcompile : CoderPlan.compile memory
      (CoderSpec.Lzma (props :: toLeBytes 4 dictSize.toNat)).coderInfo (.Known size) =
        (LzmaProperties.parse memory [props, a, b, c, d]).map .Lzma := by
    rw [hbytes]
    rfl
  unfold ReadWithin
  split
  · next hle =>
    obtain ⟨kib, hmemory, hkib⟩ := hcodecs.lzma dictSize props hle hprops
    obtain ⟨set, hset, hbound⟩ := workingSetDecoder_le hle hkib
    have hparse : LzmaProperties.parse memory [props, a, b, c, d] =
        .ok { props, dictionary := dictSize, memory := set, dictionary_le := hle } := by
      subst hvalue
      show (if h : (fromLeBytes a b c d).toNat > MAX_LZMA_DICTIONARY_BYTES then _ else _) = _
      rw [dif_neg (Nat.not_lt.mpr hle), hmemory]
      show (workingSetDecoder kib >>= _) = _
      rw [hset]
      rfl
    rw [hparse] at hcompile
    exact ⟨_, set, _, hcompile, rfl, le_refl _, rfl, hbound⟩
  · next hgt =>
    refine ⟨"LZMA dictionary", hcompile.trans ?_⟩
    subst hvalue
    show Except.map _ (if h : (fromLeBytes a b c d).toNat > MAX_LZMA_DICTIONARY_BYTES then _ else _) = _
    rw [dif_pos (Nat.not_le.mp hgt)]
    rfl

theorem lzma2_readWithin (hcodecs : codecs.Documented memory) {dictSize : UInt32} {property : UInt8}
    (h : Write.encodeLzma2DictSize dictSize = .ok property) :
    ReadWithin memory (CoderSpec.Lzma2 property).coderInfo size dictSize.toNat := by
  obtain ⟨hforty, hannounced, hcap⟩ := encodeLzma2DictSize_spec h
  have hread := lzma2DictSize_eq hforty
  have hcompile : CoderPlan.compile memory (CoderSpec.Lzma2 property).coderInfo (.Known size) =
      (lzma2DictSize (some [property])).map .Lzma2 := rfl
  unfold ReadWithin
  split
  · next hle =>
    rw [if_pos (hcap.mp hle)] at hread
    obtain ⟨dictionary, hdict, htoNat, hbound⟩ := hread
    obtain ⟨set, hset, hsetBound⟩ := workingSetDecoder_le hbound (hcodecs.lzma2 dictionary hbound)
    rw [hdict] at hcompile
    exact ⟨_, set, _, hcompile, rfl, htoNat ▸ hannounced, hset, hsetBound⟩
  · next hgt =>
    rw [if_neg (fun hle => hgt (hcap.mpr hle))] at hread
    rw [hread] at hcompile
    exact ⟨_, hcompile⟩

theorem ppmd_readWithin (order : UInt8) (memorySize : UInt32) :
    ReadWithin memory (CoderSpec.Ppmd (order :: toLeBytes 4 memorySize.toNat)).coderInfo size
      memorySize.toNat := by
  obtain ⟨a, b, c, d, hbytes, hvalue⟩ := toLeBytes_four memorySize
  have hcompile : CoderPlan.compile memory
      (CoderSpec.Ppmd (order :: toLeBytes 4 memorySize.toNat)).coderInfo (.Known size) =
        (ppmdProperties [order, a, b, c, d]).map fun read => .Ppmd read.1 read.2 size := by
    rw [hbytes]
    show (ppmdProperties [order, a, b, c, d] >>= _) = _
    cases ppmdProperties [order, a, b, c, d] <;> rfl
  have hcaps : MAX_LZMA_DICTIONARY_BYTES = MAX_PPMD_MEMORY_BYTES := rfl
  unfold ReadWithin
  split
  · next hle =>
    have hread : ppmdProperties [order, a, b, c, d] = .ok (order.toUInt32, memorySize) := by
      show (if (fromLeBytes a b c d).toNat > MAX_PPMD_MEMORY_BYTES then _ else _) = _
      rw [hvalue, if_neg (Nat.not_lt.mpr (hcaps ▸ hle))]
    rw [hread] at hcompile
    refine ⟨_, _, _, hcompile, rfl, le_refl _, rfl, ?_⟩
    exact Nat.add_le_add_right (hle.trans (by decide)) _
  · next hgt =>
    have hread : ppmdProperties [order, a, b, c, d] =
        .error (resourceLimit "PPMd memory" MAX_PPMD_MEMORY_BYTES) := by
      show (if (fromLeBytes a b c d).toNat > MAX_PPMD_MEMORY_BYTES then _ else _) = _
      rw [hvalue, if_pos (hcaps ▸ Nat.not_le.mp hgt)]
    rw [hread] at hcompile
    exact ⟨_, hcompile⟩

theorem specs_read {outside : Write.Outside} {prepared : Write.PreparedArchiveOptions}
    {specs : List CoderSpec} (hcodecs : codecs.Documented memory)
    (hprops : outside.lzmaProps prepared ≤ 224) (h : prepared.specs outside = .ok specs) :
    (specs = [.Copy] ∧ prepared.usedMemory = none) ∨
      ∃ spec used announced, (specs = [spec] ∨ specs = [spec, .Bcj]) ∧ prepared.usedMemory = some used ∧
        announcedMemory spec.coderInfo = some announced ∧ used ≤ announced ∧
        ∀ size, ReadWithin memory spec.coderInfo size used := by
  unfold Write.PreparedArchiveOptions.specs at h
  unfold Write.PreparedArchiveOptions.usedMemory
  have hbytes : ∀ (b : UInt8) (v : UInt32), ∃ announced,
      announcedMemory (CoderSpec.Lzma (b :: toLeBytes 4 v.toNat)).coderInfo = some announced ∧
        announcedMemory (CoderSpec.Ppmd (b :: toLeBytes 4 v.toNat)).coderInfo = some announced ∧
        v.toNat ≤ announced := by
    intro b v
    obtain ⟨a, b', c, d, hbytes, rfl⟩ := toLeBytes_four v
    rw [hbytes]
    exact ⟨_, rfl, rfl, le_refl _⟩
  cases hcodec : prepared.codec with
  | Copy =>
    rw [hcodec] at h
    exact .inl ⟨(Except.ok.inj h).symm, rfl⟩
  | Lzma =>
    rw [hcodec] at h
    obtain rfl := Except.ok.inj h
    obtain ⟨announced, hannounced, -, hle⟩ := hbytes (outside.lzmaProps prepared) prepared.dictSize
    exact .inr ⟨_, _, announced, .inl rfl, rfl, hannounced, hle,
      fun _ => lzma_readWithin hcodecs hprops prepared.dictSize⟩
  | Lzma2 =>
    rw [hcodec] at h
    obtain ⟨property, hproperty, h⟩ := except_map_eq_ok.mp h
    exact .inr ⟨.Lzma2 property, _, _, .inl h.symm, rfl, rfl, (encodeLzma2DictSize_spec hproperty).2.1,
      fun _ => lzma2_readWithin hcodecs hproperty⟩
  | Ppmd order memorySize =>
    rw [hcodec] at h
    obtain rfl := Except.ok.inj h
    obtain ⟨announced, -, hannounced, hle⟩ := hbytes order memorySize
    exact .inr ⟨_, _, announced, .inl rfl, rfl, hannounced, hle, fun _ => ppmd_readWithin order memorySize⟩
  | Lzma2Bcj =>
    rw [hcodec] at h
    obtain ⟨property, hproperty, h⟩ := except_map_eq_ok.mp h
    exact .inr ⟨.Lzma2 property, _, _, .inr h.symm, rfl, rfl, (encodeLzma2DictSize_spec hproperty).2.1,
      fun _ => lzma2_readWithin hcodecs hproperty⟩

/-- The plans of a folder within the caps: one for each coder, which announce what was used, and the
decoders together stay within the bound on them. -/
structure WithinCaps (memory : DecoderMemory) (coders : List CoderInfo) (sizes : List UInt64)
    (used : Option ℕ) (plans : List CoderPlan) (sets : List ℕ) : Prop
    extends CodersAccepted memory coders sizes plans sets where
  announces : ∀ bytes, used = some bytes → ∃ plan ∈ plans, ∃ announced,
    plan.announced = some announced ∧ bytes ≤ announced
  total : sets.sum ≤ CODEC_WORKING_SET_BYTES + BCJ_READER_WORKING_SET_BYTES +
    (AES_CBC_WORKING_SET_BYTES + DECODER_OVERHEAD_BYTES)

/-- The coders of a codec are accepted when what was used is within the caps, and refused when not. -/
theorem specs_withinCaps {outside : Write.Outside} {prepared : Write.PreparedArchiveOptions}
    {specs : List CoderSpec} (hcodecs : codecs.Documented memory)
    (hprops : outside.lzmaProps prepared ≤ 224) (h : prepared.specs outside = .ok specs) :
    ((∀ used, prepared.usedMemory = some used → used ≤ MAX_LZMA_DICTIONARY_BYTES) →
      ∃ plans sets, CodersAccepted memory (specs.map CoderSpec.coderInfo) (specs.map fun _ => size) plans sets ∧
        (∀ bytes, prepared.usedMemory = some bytes → ∃ plan ∈ plans, ∃ announced,
          plan.announced = some announced ∧ bytes ≤ announced) ∧
        sets.sum ≤ CODEC_WORKING_SET_BYTES + BCJ_READER_WORKING_SET_BYTES) ∧
    ∀ used, prepared.usedMemory = some used → MAX_LZMA_DICTIONARY_BYTES < used →
      ∃ resource, compileCoders memory (specs.map CoderSpec.coderInfo) (specs.map fun _ => size) =
        .error (resourceLimit resource MAX_LZMA_DICTIONARY_BYTES) := by
  have hbcj : CodersAccepted memory [CoderSpec.Bcj.coderInfo] [size] [.X86] [BCJ_READER_WORKING_SET_BYTES] :=
    CodersAccepted.nil.cons rfl rfl
  rcases specs_read hcodecs hprops h with ⟨rfl, hnone⟩ | ⟨spec, used, _, htail, hused, -, -, hread⟩
  · rw [hnone]
    refine ⟨fun _ => ⟨[.Copy], [0], CodersAccepted.nil.cons rfl rfl, fun _ h => (nomatch h), Nat.zero_le _⟩,
      fun _ h => nomatch h⟩
  rw [hused]
  refine ⟨fun hbound => ?_, fun used' heq hgt => ?_⟩
  · have hwithin := hread size
    rw [ReadWithin, if_pos (hbound used rfl)] at hwithin
    obtain ⟨plan, set, announced, hplan, hannounced, hle, hset, hsetBound⟩ := hwithin
    have hannounces : ∀ rest bytes, some used = some bytes → ∃ found ∈ plan :: rest, ∃ announced,
        found.announced = some announced ∧ bytes ≤ announced := by
      intro rest bytes hbytes
      obtain rfl := Option.some.inj hbytes
      exact ⟨plan, List.mem_cons_self, announced, hannounced, hle⟩
    rcases htail with rfl | rfl
    · refine ⟨_, _, CodersAccepted.nil.cons hplan hset, hannounces [], ?_⟩
      exact Nat.le_add_right_of_le hsetBound
    · refine ⟨_, _, hbcj.cons hplan hset, hannounces [.X86], ?_⟩
      exact Nat.add_le_add hsetBound (le_refl BCJ_READER_WORKING_SET_BYTES)
  · obtain rfl := Option.some.inj heq
    have hbeyond := hread size
    rw [ReadWithin, if_neg (Nat.not_le.mpr hgt)] at hbeyond
    obtain ⟨resource, hplan⟩ := hbeyond
    rcases htail with rfl | rfl
    · exact ⟨resource, compileCoders_refused hplan⟩
    · exact ⟨resource, compileCoders_refused hplan⟩

theorem aes_accepted {props : List UInt8} (h : Write.AesProps props) : ∃ plan set,
    CoderPlan.compile memory (aesCoder props) (.Known size) = .ok plan ∧
      plan.workingSet memory = .ok set ∧ set = AES_CBC_WORKING_SET_BYTES + DECODER_OVERHEAD_BYTES := by
  obtain ⟨power, salt, iv, hsalt, hiv, rfl⟩ := h
  obtain ⟨properties, hparse⟩ : ∃ properties,
      AesProperties.parse (Write.encodeAesProperties power salt iv) = .ok properties :=
    ⟨_, AesProperties.parse_encode power hsalt hiv⟩
  refine ⟨.Aes properties, _, ?_, rfl, rfl⟩
  show (AesProperties.parse (Write.encodeAesProperties power salt iv) >>= _) = _
  rw [hparse]
  rfl

end

namespace Write.LinesUp

variable {codecs : Options.Codecs} {memory : DecoderMemory} {completed : CompletedFolder}
  {outside : Outside} {prepared : PreparedArchiveOptions} {knownSize : Option UInt64}
  {chunks : List (List UInt8)} {unpackSize : UInt64} {cipher : Option EncryptedPayload}
  {specs : List CoderSpec} {graph : FolderGraph}

theorem announces (h : LinesUp completed outside prepared knownSize chunks unpackSize cipher specs graph)
    (hcodecs : codecs.Documented memory) (hprops : outside.lzmaProps prepared ≤ 224) {used : ℕ}
    (hused : prepared.usedMemory = some used) : ∃ coder ∈ folderCoders cipher specs, ∃ announced,
      announcedMemory coder = some announced ∧ used ≤ announced := by
  rcases specs_read hcodecs hprops h.codec with ⟨-, hnone⟩ |
    ⟨spec, used', announced, htail, hused', hannounced, hle, -⟩
  · rw [hnone] at hused
    cases hused
  · obtain rfl := Option.some.inj (hused'.symm.trans hused)
    have hmem : spec.coderInfo ∈ specs.map CoderSpec.coderInfo := by
      rcases htail with rfl | rfl <;> exact List.mem_cons_self
    exact ⟨_, List.mem_append_right _ hmem, announced, hannounced, hle⟩

theorem withinCaps (h : LinesUp completed outside prepared knownSize chunks unpackSize cipher specs graph)
    (hcodecs : codecs.Documented memory) (hprops : outside.lzmaProps prepared ≤ 224)
    (hbound : ∀ used, prepared.usedMemory = some used → used ≤ MAX_LZMA_DICTIONARY_BYTES) :
    ∃ plans sets, WithinCaps memory (folderCoders cipher specs) completed.coderUnpackSizes
      prepared.usedMemory plans sets := by
  obtain ⟨plans, sets, haccepted, hannounces, htotal⟩ :=
    (@specs_withinCaps codecs memory unpackSize _ _ _ hcodecs hprops h.codec).1 hbound
  rw [h.sizes]
  cases cipher with
  | none => exact ⟨plans, sets, haccepted, hannounces, Nat.le_add_right_of_le htotal⟩
  | some c =>
    obtain ⟨plan, set, hplan, hset, rfl⟩ := aes_accepted (h.plaintext c rfl).1
    refine ⟨_, _, haccepted.cons hplan hset, fun bytes hbytes => ?_, ?_⟩
    · obtain ⟨found, hfound, hmemory⟩ := hannounces bytes hbytes
      exact ⟨found, List.mem_cons_of_mem _ hfound, hmemory⟩
    · rw [List.sum_cons, Nat.add_comm]
      exact Nat.add_le_add_right htotal _

theorem refused (h : LinesUp completed outside prepared knownSize chunks unpackSize cipher specs graph)
    (hcodecs : codecs.Documented memory) (hprops : outside.lzmaProps prepared ≤ 224) {used : ℕ}
    (hused : prepared.usedMemory = some used) (hgt : MAX_LZMA_DICTIONARY_BYTES < used) :
    ∃ resource, compileCoders memory (folderCoders cipher specs) completed.coderUnpackSizes =
      .error (resourceLimit resource MAX_LZMA_DICTIONARY_BYTES) := by
  obtain ⟨resource, hrefused⟩ :=
    (@specs_withinCaps codecs memory unpackSize _ _ _ hcodecs hprops h.codec).2 used hused hgt
  refine ⟨resource, ?_⟩
  rw [h.sizes]
  cases cipher with
  | none => exact hrefused
  | some c =>
    obtain ⟨plan, set, hplan, -, -⟩ := aes_accepted (h.plaintext c rfl).1
    exact compileCoders_refused_after hplan hrefused

end Write.LinesUp

theorem WithinCaps.admitted {memory : DecoderMemory} {coders : List CoderInfo} {sizes : List UInt64}
    {used : Option ℕ} {plans : List CoderPlan} {sets : List ℕ}
    (h : WithinCaps memory coders sizes used plans sets) {budget : OperationBudget}
    (hlimit : budget.limits.maxDecoderWorkingSetBytes = none) :
    ∃ admitted, budget.admitDecoderWorkingSet sets.sum = .ok admitted := by
  have hmax : sets.sum ≤ MAX_DECODER_WORKING_SET_BYTES := h.total.trans (by decide)
  unfold OperationBudget.admitDecoderWorkingSet
  rw [hlimit]
  exact ⟨_, if_neg (Nat.not_lt.mpr hmax)⟩

/-- A folder that the writer completes for options that it accepted is described by coders that announce
at least the dictionary or the memory that the encoder worked with. The reader plans all of them when that
is within its caps, and an operation that sets no limit of its own admits the decoders; beyond the caps it
refuses them. -/
theorem accepted_options_readable {codecs : Options.Codecs} {memory : DecoderMemory}
    (hcodecs : codecs.Documented memory) {options : Options.ArchiveOptions}
    {prepared : Write.PreparedArchiveOptions}
    (hprepare : Options.prepareArchiveOptions codecs options = .ok prepared) {outside : Write.Outside}
    (hprops : outside.lzmaProps prepared = codecs.props (Options.lzmaOptions codecs options.compression))
    {knownSize : Option UInt64} {folder : Write.StreamingFolder} {chunks : List (List UInt8)}
    {completed : Write.CompletedFolder} {w w' : Write.ArchiveWriter}
    (hfilled : folder.Filled outside prepared knownSize chunks)
    (hcomplete : folder.complete outside prepared w = (.ok completed, w')) :
    ∃ coders graph, ParsesBack completed.coderInfo coders graph ∧
      (∀ used, prepared.usedMemory = some used → ∃ coder ∈ coders, ∃ announced,
        announcedMemory coder = some announced ∧ used ≤ announced) ∧
      ((∀ used, prepared.usedMemory = some used → used ≤ MAX_LZMA_DICTIONARY_BYTES) →
        ∃ plans sets,
          WithinCaps memory coders completed.coderUnpackSizes prepared.usedMemory plans sets ∧
          ∀ budget : OperationBudget, budget.limits.maxDecoderWorkingSetBytes = none →
            ∃ admitted, budget.admitDecoderWorkingSet sets.sum = .ok admitted) ∧
      ∀ used, prepared.usedMemory = some used → MAX_LZMA_DICTIONARY_BYTES < used → ∃ resource,
        compileCoders memory coders completed.coderUnpackSizes =
          .error (resourceLimit resource MAX_LZMA_DICTIONARY_BYTES) := by
  obtain ⟨cipher, specs, graph, hlines⟩ := hfilled.linesUp hcomplete
  obtain ⟨settings, hsettings, -, -, -⟩ := Options.prepareArchiveOptions_eq_ok hprepare
  obtain ⟨u, hbits⟩ := Options.validateArchiveOptions_propertyBits hsettings
  have hbyte : outside.lzmaProps prepared ≤ 224 := hprops ▸ Options.props_le hcodecs hbits
  refine ⟨_, graph, hlines.parses, fun _ => hlines.announces hcodecs hbyte, fun hbound => ?_,
    fun _ => hlines.refused hcodecs hbyte⟩
  obtain ⟨plans, sets, hwithin⟩ := hlines.withinCaps hcodecs hbyte hbound
  exact ⟨plans, sets, hwithin, fun _ => hwithin.admitted⟩

def plainCodecs : Options.Codecs where
  withPreset _ := { dictSize := Options.mib 8, lc := 3, lp := 0, pb := 2, mode := .Normal, niceLen := 32,
                    mf := .Bt4, depthLimit := 0 }
  props options :=
    UInt8.ofNat ((options.pb.toNat * 5 + options.lp.toNat) * 9 + options.lc.toNat)
  ppmd7MinOrder := 2
  ppmd7MaxOrder := 64
  ppmd7MinMemSize := 2048
  ppmd7MaxMemSize := 0xFFFFFFDB

def plainMemory : DecoderMemory where
  lzma dictionary props :=
    if props > 224 then none
    else
      let bits := props.toNat % 45 / 9 + props.toNat % 45 % 9
      some (UInt32.ofNat (10 + max dictionary.toNat 4096 / 1024 + 1536 * 2 ^ bits / 1024))
  lzma2 dictionary := UInt32.ofNat (104 + max dictionary.toNat 4096 / 1024)

theorem plainCodecs_documented : plainCodecs.Documented plainMemory := by
  have hsmall : MAX_LZMA_DICTIONARY_BYTES = 268435456 := by decide
  refine ⟨fun _ _ => ⟨rfl, rfl, rfl⟩, fun options hlc hlp hpb => ?_, fun dictionary props hdict hprops => ?_,
    fun dictionary hdict => ?_⟩
  · have hlc' : options.lc.toNat ≤ 8 := hlc
    have hlp' : options.lp.toNat ≤ 4 := hlp
    have hpb' : options.pb.toNat ≤ 4 := hpb
    exact UInt8.toNat_ofNat_of_lt' (show _ < 256 by omega)
  · refine ⟨_, if_neg (UInt8.not_lt.mpr hprops), ?_⟩
    have hbits : props.toNat % 45 / 9 + props.toNat % 45 % 9 ≤ 12 := by omega
    have hpow : 1536 * 2 ^ (props.toNat % 45 / 9 + props.toNat % 45 % 9) / 1024 ≤ 6144 :=
      (Nat.div_le_div_right (Nat.mul_le_mul_left _ (Nat.pow_le_pow_right (by decide) hbits))).trans
        (by decide)
    rw [UInt32.toNat_ofNat_of_lt' (show _ < 2 ^ 32 by omega)]
    omega
  · show (UInt32.ofNat _).toNat ≤ _
    rw [UInt32.toNat_ofNat_of_lt' (show _ < 2 ^ 32 by omega)]
    omega

def lzmaWith (dictionary : UInt32) : Options.ArchiveOptions :=
  { Options.ArchiveOptions.default with
    codec := .Lzma
    headerMode := .Plain
    compression := { Options.CompressionOptions.default with dictionarySize := some dictionary } }

def lzmaPrepared (dictionary : UInt32) : Write.PreparedArchiveOptions :=
  { plainPrepared with codec := .Lzma, dictSize := dictionary }

theorem exists_completed {prepared : Write.PreparedArchiveOptions} {w : Write.ArchiveWriter}
    (h : ((do
      let folder ← Write.StreamingFolder.encoded plainOutside none prepared
      folder.complete plainOutside prepared : Write.WriterM Write.CompletedFolder) w).1.isOk) :
    ∃ folder completed w₁ w₂, Write.StreamingFolder.Filled plainOutside prepared none folder [] ∧
      folder.complete plainOutside prepared w₁ = (.ok completed, w₂) := by
  obtain ⟨completed, hok⟩ := eq_ok_of_isOk h
  obtain ⟨folder, w₁, hencoded, hcomplete⟩ := Effect.Machine.bind_eq_ok.mp (Prod.ext hok rfl)
  exact ⟨folder, completed, w₁, _, .encoded hencoded, hcomplete⟩

/-- LZMA with a dictionary of 16 MiB. -/
theorem accepted_options_readable_lzma :
    ∃ folder completed w w',
      Write.StreamingFolder.Filled plainOutside (lzmaPrepared (Options.mib 16)) none folder [] ∧
      folder.complete plainOutside (lzmaPrepared (Options.mib 16)) w = (.ok completed, w') ∧
      ∃ coders graph plans sets, ParsesBack completed.coderInfo coders graph ∧
        WithinCaps plainMemory coders completed.coderUnpackSizes (some (16 * 2 ^ 20)) plans sets := by
  obtain ⟨folder, completed, w, w', hfilled, hcomplete⟩ := @exists_completed (lzmaPrepared (Options.mib 16))
    (Write.ArchiveWriter.new ⟨[], 0⟩ (lzmaPrepared (Options.mib 16))) (by decide +kernel)
  have hprepare : Options.prepareArchiveOptions plainCodecs (lzmaWith (Options.mib 16)) =
      .ok (lzmaPrepared (Options.mib 16)) := by decide +kernel
  obtain ⟨coders, graph, hparses, -, hwithin, -⟩ := accepted_options_readable plainCodecs_documented
    hprepare (by decide +kernel) hfilled hcomplete
  obtain ⟨plans, sets, hwithin, -⟩ := hwithin fun used hused => by
    rw [← Option.some.inj hused]
    decide
  exact ⟨folder, completed, w, w', hfilled, hcomplete, coders, graph, plans, sets, hparses, hwithin⟩

/-- LZMA with a dictionary of one byte more than 256 MiB is written and not read. -/
theorem dictionary_beyond_caps :
    Options.prepareArchiveOptions plainCodecs (lzmaWith (Options.mib 256 + 1)) =
      .ok (lzmaPrepared (Options.mib 256 + 1)) ∧
    ∃ folder completed w w',
      Write.StreamingFolder.Filled plainOutside (lzmaPrepared (Options.mib 256 + 1)) none folder [] ∧
      folder.complete plainOutside (lzmaPrepared (Options.mib 256 + 1)) w = (.ok completed, w') ∧
      ∃ coders graph resource, ParsesBack completed.coderInfo coders graph ∧
        compileCoders plainMemory coders completed.coderUnpackSizes =
          .error (resourceLimit resource MAX_LZMA_DICTIONARY_BYTES) := by
  obtain ⟨folder, completed, w, w', hfilled, hcomplete⟩ :=
    @exists_completed (lzmaPrepared (Options.mib 256 + 1))
      (Write.ArchiveWriter.new ⟨[], 0⟩ (lzmaPrepared (Options.mib 256 + 1))) (by decide +kernel)
  obtain ⟨cipher, specs, graph, hlines⟩ := hfilled.linesUp hcomplete
  obtain ⟨resource, hrefused⟩ := hlines.refused plainCodecs_documented (by decide) rfl (by decide)
  exact ⟨by decide +kernel, folder, completed, w, w', hfilled, hcomplete, _, graph, resource,
    hlines.parses, hrefused⟩

end R7z
