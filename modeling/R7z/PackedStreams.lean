import R7z.CoderLists
import R7z.FailedWriter

/-! The packed streams: an encoder hands its bytes on to the payload, the payload to the output, and behind
what is there already a complete folder has put out all that its files come to. -/

namespace R7z

open Wire Effect Effect.Machine Write

namespace Write

structure Sink.Ends (start : Sink) (front : List UInt8) (sink : Sink) : Prop where
  content : sink.content = front ++ start.content.drop front.length
  position : sink.position = front.length

theorem Sink.write_content {sink : Sink} {front rest : List UInt8} (hcontent : sink.content = front ++ rest)
    (hposition : sink.position = front.length) (bytes : List UInt8) :
    (sink.write bytes).content = front ++ bytes ++ rest.drop bytes.length := by
  have hlength : front.length ≤ sink.content.length := by
    rw [hcontent, List.length_append]
    exact Nat.le_add_right _ _
  change sink.content.take sink.position ++ List.replicate (sink.position - sink.content.length) 0 ++ bytes ++
    sink.content.drop (sink.position + bytes.length) = _
  rw [hposition, Nat.sub_eq_zero_of_le hlength, List.replicate_zero, List.append_nil, hcontent, List.take_left,
    ← List.drop_drop, List.drop_left]

theorem Sink.Ends.write {start sink : Sink} {front : List UInt8} (h : Sink.Ends start front sink)
    (bytes : List UInt8) : Sink.Ends start (front ++ bytes) (sink.write bytes) := by
  constructor
  · rw [Sink.write_content h.content h.position, List.drop_drop, List.length_append]
  · change sink.position + bytes.length = _
    rw [h.position, List.length_append]

section
variable {outside : Outside} {prepared : PreparedArchiveOptions} {knownSize : Option UInt64} {start : Sink}
  {front : List UInt8} {w w' : ArchiveWriter}

theorem writeAll_ends {bytes : List UInt8} (h : Sink.Ends start front w.output)
    (hrun : writeAll outside bytes w = (.ok (), w')) : Sink.Ends start (front ++ bytes) w'.output := by
  unfold writeAll at hrun
  split at hrun
  · next hempty =>
    cases hrun
    rw [List.isEmpty_iff.mp hempty, List.append_nil]
    exact h
  · obtain ⟨fault, w₁, hfault, hrun⟩ := bind_eq_ok.mp hrun
    cases hfault
    cases hwritten : outside.fault w.clock with
    | none =>
      rw [hwritten] at hrun
      cases hrun
      exact h.write bytes
    | some fault =>
      rw [hwritten] at hrun
      cases hrun

theorem countedWrite_ends {count count' : UInt64} {out bytes : List UInt8} (hcount : count = UInt64.ofNat out.length)
    (h : Sink.Ends start front w.output) (hrun : countedWrite outside count bytes w = (.ok count', w')) :
    count' = UInt64.ofNat (out ++ bytes).length ∧ Sink.Ends start (front ++ bytes) w'.output := by
  obtain ⟨_, w₁, hwrite, hadd⟩ := bind_eq_ok.mp hrun
  obtain ⟨hsum, rfl⟩ := Prod.mk.inj hadd
  rw [checkedAdd_eq_ok hsum, hcount, List.length_append, UInt64.ofNat_add]
  exact ⟨rfl, writeAll_ends h hwrite⟩

/-! The payload -/

def Keyed (outside : Outside) (encryption : PreparedEncryption) (key iv props : List UInt8) : Prop :=
  ∃ salt ivBytes, salt.length = encryption.saltLen ∧ ivBytes.length = encryption.ivLen ∧
    key = outside.deriveKey encryption.password salt encryption.numCyclesPower ∧
    iv = ivBytes ++ List.replicate (16 - ivBytes.length) 0 ∧
    props = encodeAesProperties encryption.numCyclesPower salt ivBytes

theorem randomBytes_length {n : ℕ} {bytes : List UInt8} (h : randomBytes outside n w = (.ok bytes, w')) :
    bytes.length = n := by
  obtain ⟨_, w₁, -, h⟩ := bind_eq_ok.mp h
  cases h
  rw [List.length_map, List.length_range]

theorem makeAesMaterial_keyed {encryption : PreparedEncryption} {key iv props : List UInt8}
    (h : makeAesMaterial outside encryption w = (.ok (key, iv, props), w')) :
    Keyed outside encryption key iv props := by
  obtain ⟨salt, w₁, hsalt, h⟩ := bind_eq_ok.mp h
  obtain ⟨ivBytes, w₂, hiv, h⟩ := bind_eq_ok.mp h
  obtain ⟨_, w₃, -, h⟩ := bind_eq_ok.mp h
  cases h
  exact ⟨salt, ivBytes, randomBytes_length hsalt, randomBytes_length hiv, rfl, rfl, rfl⟩

def PayloadWriter.Put (outside : Outside) (prepared : PreparedArchiveOptions) (given out : List UInt8) :
    PayloadWriter → Prop
  | .Plain count => prepared.encryption = none ∧ out = given ∧ count = UInt64.ofNat out.length
  | .Aes key iv props plaintextSize pieces count => ∃ encryption, prepared.encryption = some encryption ∧
      Keyed outside encryption key iv props ∧ plaintextSize = UInt64.ofNat given.length ∧
      pieces.flatten = given ∧ out = (outside.aes key iv).emitted [] pieces ∧ count = UInt64.ofNat out.length

def PayloadWriter.Puts (outside : Outside) (prepared : PreparedArchiveOptions) (start : Sink)
    (front given : List UInt8) (payload : PayloadWriter) (sink : Sink) : Prop :=
  ∃ out, payload.Put outside prepared given out ∧ Sink.Ends start (front ++ out) sink

/-- A packed stream that some bytes make, with the cipher that is in front of the other coders. -/
inductive Packs (outside : Outside) (prepared : PreparedArchiveOptions) (given : List UInt8) :
    Option EncryptedPayload → List UInt8 → Prop where
  | plain (hplain : prepared.encryption = none) : Packs outside prepared given none given
  | cipher {encryption : PreparedEncryption} {key iv : List UInt8} {pieces : List (List UInt8)}
      {cipher : EncryptedPayload} (hencryption : prepared.encryption = some encryption)
      (hkeyed : Keyed outside encryption key iv cipher.props)
      (hsize : cipher.plaintextSize = UInt64.ofNat given.length) (hpieces : pieces.flatten = given) :
      Packs outside prepared given (some cipher) ((outside.aes key iv).encode pieces)

namespace PayloadWriter

theorem puts_new {payload : PayloadWriter} (h : Sink.Ends start front w.output)
    (hrun : PayloadWriter.new outside prepared w = (.ok payload, w')) :
    payload.Puts outside prepared start front [] w'.output := by
  have houtput : w'.output = w.output := by
    have hstill : Keeps ArchiveWriter.output (PayloadWriter.new outside prepared) := by
      unfold PayloadWriter.new
      have hexternal : Keeps ArchiveWriter.output (external outside) := external_still fun _ _ => rfl
      have hrandom : ∀ n, Keeps ArchiveWriter.output (randomBytes outside n) := fun n =>
        hexternal.bind fun _ => Keeps.get.bind fun _ => Keeps.pure _
      cases prepared.encryption with
      | none => exact Keeps.pure _
      | some encryption =>
        exact ((hrandom _).bind fun _ => (hrandom _).bind fun _ => hexternal.bind fun _ => Keeps.pure _).bind
          fun _ => Keeps.pure _
    exact hstill.ok hrun
  refine ⟨[], ?_, ?_⟩
  · unfold PayloadWriter.new at hrun
    cases hencryption : prepared.encryption with
    | none =>
      rw [hencryption] at hrun
      cases hrun
      exact ⟨hencryption, rfl, rfl⟩
    | some encryption =>
      rw [hencryption] at hrun
      obtain ⟨⟨key, iv, props⟩, w₁, hmaterial, hrun⟩ := bind_eq_ok.mp hrun
      cases hrun
      exact ⟨encryption, hencryption, makeAesMaterial_keyed hmaterial, rfl, rfl, rfl, rfl⟩
  · rw [List.append_nil, houtput]
    exact h

theorem Puts.write {payload payload' : PayloadWriter} {given bytes : List UInt8}
    (h : payload.Puts outside prepared start front given w.output)
    (hrun : payload.write outside bytes w = (.ok payload', w')) :
    payload'.Puts outside prepared start front (given ++ bytes) w'.output := by
  obtain ⟨out, hput, hends⟩ := h
  cases payload with
  | Plain count =>
    obtain ⟨count', w₁, hwrite, hrun⟩ := bind_eq_ok.mp hrun
    cases hrun
    obtain ⟨hplain, rfl, hcount⟩ := hput
    obtain ⟨hcount', hends'⟩ := countedWrite_ends hcount hends hwrite
    refine ⟨out ++ bytes, ⟨hplain, rfl, hcount'⟩, ?_⟩
    rw [← List.append_assoc]
    exact hends'
  | Aes key iv props plaintextSize pieces count =>
    obtain ⟨size, w₁, hadd, hrun⟩ := bind_eq_ok.mp hrun
    obtain ⟨hsum, rfl⟩ := Prod.mk.inj hadd
    obtain ⟨count', w₂, hwrite, hrun⟩ := bind_eq_ok.mp hrun
    cases hrun
    obtain ⟨encryption, hencryption, hkeyed, hsize, rfl, rfl, hcount⟩ := hput
    obtain ⟨hcount', hends'⟩ := countedWrite_ends hcount hends hwrite
    refine ⟨_, ⟨encryption, hencryption, hkeyed, ?_, ?_, ?_, hcount'⟩, ?_⟩
    · rw [checkedAdd_eq_ok hsum, hsize, List.length_append, UInt64.ofNat_add]
    · rw [List.flatten_append, List.flatten_singleton]
    · rw [Encoder.emitted_append, List.nil_append]
    · rw [← List.append_assoc]
      exact hends'

theorem Puts.finish {payload : PayloadWriter} {given : List UInt8} {packSize : UInt64}
    {cipher : Option EncryptedPayload} (h : payload.Puts outside prepared start front given w.output)
    (hrun : payload.finish outside w = (.ok (packSize, cipher), w')) :
    ∃ packed, Packs outside prepared given cipher packed ∧ packSize = UInt64.ofNat packed.length ∧
      Sink.Ends start (front ++ packed) w'.output := by
  obtain ⟨out, hput, hends⟩ := h
  cases payload with
  | Plain count =>
    cases hrun
    obtain ⟨hplain, rfl, hcount⟩ := hput
    exact ⟨out, .plain hplain, hcount, hends⟩
  | Aes key iv props plaintextSize pieces count =>
    obtain ⟨count', w₁, hwrite, hrun⟩ := bind_eq_ok.mp hrun
    cases hrun
    obtain ⟨encryption, hencryption, hkeyed, hsize, hpieces, rfl, hcount⟩ := hput
    obtain ⟨hcount', hends'⟩ := countedWrite_ends hcount hends hwrite
    refine ⟨_, .cipher hencryption hkeyed hsize hpieces, hcount', ?_⟩
    rw [List.append_assoc] at hends'
    exact hends'

end PayloadWriter

/-! The encoder -/

def StreamingEncoder.payload? : StreamingEncoder → Option PayloadWriter
  | .Raw .. => none
  | .Copy writer => some writer
  | .Lzma2 _ _ writer => some writer
  | .Lzma _ writer _ => some writer
  | .Ppmd _ _ _ writer _ => some writer
  | .BcjLzma2 _ _ writer => some writer

def emittedBytes (outside : Outside) (prepared : PreparedArchiveOptions) (knownSize : Option UInt64)
    (chunks : List (List UInt8)) : List UInt8 :=
  match prepared.codec with
  | .Copy => chunks.flatten
  | .Lzma => (outside.lzma prepared).emitted [] chunks
  | .Lzma2 => (outside.lzma2 prepared knownSize).emitted [] chunks
  | .Ppmd order memorySize => (outside.ppmd order memorySize).emitted [] chunks
  | .Lzma2Bcj => (outside.bcjLzma2 prepared knownSize).emitted [] chunks

/-- An open folder that was given these chunks, and put out behind the front of the sink what they make so
far. -/
def StreamingFolder.Puts (outside : Outside) (prepared : PreparedArchiveOptions) (start : Sink)
    (front : List UInt8) (chunks : List (List UInt8)) (folder : StreamingFolder) (sink : Sink) : Prop :=
  ∃ knownSize payload, folder.Filled outside prepared knownSize chunks ∧
    folder.encoder.payload? = some payload ∧
    payload.Puts outside prepared start front (emittedBytes outside prepared knownSize chunks) sink

theorem StreamingEncoder.payload_encoded {folder : StreamingFolder} (h : Sink.Ends start front w.output)
    (hrun : StreamingFolder.encoded outside knownSize prepared w = (.ok folder, w')) :
    folder.Puts outside prepared start front [] w'.output := by
  have hfilled : folder.Filled outside prepared knownSize [] := .encoded hrun
  have hexternal : Keeps ArchiveWriter.output (external outside) := external_still fun _ _ => rfl
  obtain ⟨_, w₁, hfirst, hrun⟩ := bind_eq_ok.mp hrun
  obtain ⟨payload, w₂, hpayload, hrun⟩ := bind_eq_ok.mp hrun
  obtain ⟨_, w₃, hsecond, hrun⟩ := bind_eq_ok.mp hrun
  obtain ⟨out, hput, hends⟩ := PayloadWriter.puts_new (hexternal.ok hfirst ▸ h) hpayload
  obtain ⟨hfolder, rfl⟩ := Prod.mk.inj hrun
  obtain rfl := Except.ok.inj hfolder
  have hemitted : emittedBytes outside prepared knownSize [] = [] := by
    unfold emittedBytes
    cases prepared.codec <;> rfl
  refine ⟨knownSize, payload, hfilled, ?_, ⟨out, hemitted.symm ▸ hput, ?_⟩⟩
  · dsimp only
    cases prepared.codec <;> rfl
  · exact hexternal.ok hsecond ▸ hends

theorem writeEncoder_payload {encoder encoder' : StreamingEncoder} {chunks : List (List UInt8)} {bytes : List UInt8}
    (hholds : encoder.Holds outside prepared knownSize chunks)
    (hrun : StreamingFolder.writeEncoder outside prepared bytes encoder w = (.ok encoder', w')) :
    ∃ payload payload' more, encoder.payload? = some payload ∧ encoder'.payload? = some payload' ∧
      payload.write outside more w = (.ok payload', w') ∧
      emittedBytes outside prepared knownSize (chunks ++ [bytes]) =
        emittedBytes outside prepared knownSize chunks ++ more := by
  unfold emittedBytes
  cases encoder with
  | Raw => exact hholds.elim
  | Copy payload =>
    obtain ⟨hcodec, -⟩ := hholds
    obtain ⟨payload', w₁, hwrite, hrun⟩ := bind_eq_ok.mp hrun
    cases hrun
    refine ⟨payload, payload', bytes, rfl, rfl, hwrite, ?_⟩
    rw [hcodec]
    simp
  | Lzma2 known given payload =>
    obtain ⟨hcodec, rfl, rfl, -⟩ := hholds
    obtain ⟨payload', w₁, hwrite, hrun⟩ := bind_eq_ok.mp hrun
    cases hrun
    refine ⟨payload, payload', _, rfl, rfl, hwrite, ?_⟩
    rw [hcodec]
    exact Encoder.emitted_append _ [] _ _
  | Lzma given payload props =>
    obtain ⟨hcodec, rfl, -, -⟩ := hholds
    obtain ⟨payload', w₁, hwrite, hrun⟩ := bind_eq_ok.mp hrun
    cases hrun
    refine ⟨payload, payload', _, rfl, rfl, hwrite, ?_⟩
    rw [hcodec]
    exact Encoder.emitted_append _ [] _ _
  | Ppmd order memorySize given payload props =>
    obtain ⟨hcodec, rfl, -, -⟩ := hholds
    obtain ⟨payload', w₁, hwrite, hrun⟩ := bind_eq_ok.mp hrun
    cases hrun
    refine ⟨payload, payload', _, rfl, rfl, hwrite, ?_⟩
    rw [hcodec]
    exact Encoder.emitted_append _ [] _ _
  | BcjLzma2 known given payload =>
    obtain ⟨hcodec, rfl, rfl, -⟩ := hholds
    obtain ⟨payload', w₁, hwrite, hrun⟩ := bind_eq_ok.mp hrun
    cases hrun
    refine ⟨payload, payload', _, rfl, rfl, hwrite, ?_⟩
    rw [hcodec]
    exact Encoder.emitted_append _ [] _ _

theorem StreamingFolder.Puts.write {folder folder' : StreamingFolder} {chunks : List (List UInt8)}
    {bytes : List UInt8} (h : folder.Puts outside prepared start front chunks w.output)
    (hrun : folder.write outside prepared bytes w = (.ok folder', w')) :
    folder'.Puts outside prepared start front (chunks ++ [bytes]) w'.output := by
  obtain ⟨knownSize, payload, hfilled, hpayload, out, hput, hends⟩ := h
  have hfilled' := hfilled.write hrun
  have hexternal : Keeps ArchiveWriter.output (external outside) := external_still fun _ _ => rfl
  obtain ⟨_, w₁, hfirst, hrun⟩ := bind_eq_ok.mp hrun
  obtain ⟨encoder, w₂, hwrite, hrun⟩ := bind_eq_ok.mp hrun
  cases hrun
  obtain ⟨payload₁, payload', more, hpayload₁, hpayload', hrun, hmore⟩ := writeEncoder_payload hfilled.holds hwrite
  obtain rfl := Option.some.inj (hpayload.symm.trans hpayload₁)
  have hputs : payload.Puts outside prepared start front (emittedBytes outside prepared knownSize chunks) w₁.output :=
    ⟨out, hput, hexternal.ok hfirst ▸ hends⟩
  exact ⟨knownSize, payload', hfilled', hpayload', hmore ▸ hputs.write hrun⟩

theorem StreamingFolder.Puts.recordStream {folder folder' : StreamingFolder} {chunks : List (List UInt8)}
    {entryIndex : WriteEntryIndex} {size : UInt64} {checksum : UInt32}
    {sink : Sink} (h : folder.Puts outside prepared start front chunks sink)
    (hrun : folder.recordStream entryIndex size checksum = .ok folder') :
    folder'.Puts outside prepared start front chunks sink := by
  obtain ⟨knownSize, payload, hfilled, hpayload, hputs⟩ := h
  refine ⟨knownSize, payload, hfilled.recordStream hrun, ?_, hputs⟩
  unfold StreamingFolder.recordStream at hrun
  split at hrun
  · cases hrun
  · obtain ⟨unpackSize, -, hrun⟩ := except_bind_eq_ok.mp hrun
    cases hrun
    exact hpayload

/-! A folder that is completed -/

/-- A complete folder, from the description of its coders to its packed stream. -/
structure Encodes (outside : Outside) (prepared : PreparedArchiveOptions) (chunks : List (List UInt8))
    (packed : List UInt8) (unpackSize : UInt64) (folder : CompletedFolder) : Prop where
  packSizes : folder.packSizes = [UInt64.ofNat packed.length]
  coders : ∃ knownSize specs cipher, prepared.specs outside = .ok specs ∧
    Packs outside prepared (encodedBytes outside prepared knownSize chunks) cipher packed ∧
    folder.coderInfo = (cipher.elim (plainCoderInfo specs) fun c => encodeCoderInfoAesThen specs c.props) ∧
    folder.coderUnpackSizes = (cipher.map EncryptedPayload.plaintextSize).toList ++ specs.map fun _ => unpackSize

theorem closeInto_puts {payload payload' : PayloadWriter} {encoder : Encoder} {chunks : List (List UInt8)}
    (h : payload.Puts outside prepared start front (encoder.emitted [] chunks) w.output)
    (hrun : StreamingFolder.closeInto outside payload encoder chunks w = (.ok payload', w')) :
    payload'.Puts outside prepared start front (encoder.encode chunks) w'.output := by
  obtain ⟨_, w₁, hfirst, hrun⟩ := bind_eq_ok.mp hrun
  obtain ⟨out, hput, hends⟩ := h
  have hexternal : Keeps ArchiveWriter.output (external outside) := external_still fun _ _ => rfl
  have hputs : payload.Puts outside prepared start front (encoder.emitted [] chunks) w₁.output :=
    ⟨out, hput, hexternal.ok hfirst ▸ hends⟩
  exact hputs.write hrun

theorem finishPayload_puts {payload : PayloadWriter} {given coderInfo info : List UInt8} {sizes sizes' : List UInt64}
    {specs : List CoderSpec} {packSize : UInt64} (h : payload.Puts outside prepared start front given w.output)
    (hrun : StreamingFolder.finishPayload outside payload coderInfo sizes specs w =
      (.ok (packSize, info, sizes'), w')) :
    ∃ cipher packed, Packs outside prepared given cipher packed ∧ packSize = UInt64.ofNat packed.length ∧
      info = (cipher.elim coderInfo fun c => encodeCoderInfoAesThen specs c.props) ∧
      sizes' = (cipher.map EncryptedPayload.plaintextSize).toList ++ sizes ∧
      Sink.Ends start (front ++ packed) w'.output := by
  obtain ⟨⟨size, cipher⟩, w₁, hfinish, hrun⟩ := bind_eq_ok.mp hrun
  obtain ⟨packed, hpacks, hsize, hends⟩ := h.finish hfinish
  cases cipher with
  | none =>
    cases hrun
    exact ⟨none, packed, hpacks, hsize, rfl, rfl, hends⟩
  | some cipher =>
    cases hrun
    exact ⟨some cipher, packed, hpacks, hsize, rfl, rfl, hends⟩

theorem encodes_of_finish {payload : PayloadWriter} {info : List UInt8} {sizes : List UInt64} {specs : List CoderSpec}
    {packSize unpackSize : UInt64} {completed : CompletedFolder} {chunks : List (List UInt8)}
    (hspecs : prepared.specs outside = .ok specs)
    (h : payload.Puts outside prepared start front (encodedBytes outside prepared knownSize chunks) w.output)
    (hrun : StreamingFolder.finishPayload outside payload (plainCoderInfo specs) (specs.map fun _ => unpackSize) specs w =
      (.ok (packSize, info, sizes), w'))
    (hpack : completed.packSizes = [packSize]) (hinfo : completed.coderInfo = info)
    (hsizes : completed.coderUnpackSizes = sizes) :
    ∃ packed, Encodes outside prepared chunks packed unpackSize completed ∧
      Sink.Ends start (front ++ packed) w'.output := by
  obtain ⟨cipher, packed, hpacks, hsize, rfl, rfl, hends⟩ := finishPayload_puts h hrun
  exact ⟨packed, ⟨by rw [hpack, hsize], knownSize, specs, cipher, hspecs, hpacks, hinfo, hsizes⟩, hends⟩

/-- A complete folder encodes the chunks it was given, and its packed stream is behind the front of the sink. -/
theorem StreamingFolder.Puts.complete {folder : StreamingFolder} {completed : CompletedFolder}
    {chunks : List (List UInt8)} (h : folder.Puts outside prepared start front chunks w.output)
    (hrun : folder.complete outside prepared w = (.ok completed, w')) :
    ∃ packed, Encodes outside prepared chunks packed folder.unpackSize completed ∧
      Sink.Ends start (front ++ packed) w'.output := by
  obtain ⟨knownSize, payload, hfilled, hpayload, hputs⟩ := h
  have hholds := hfilled.holds
  unfold StreamingFolder.complete at hrun
  dsimp only at hrun
  unfold emittedBytes at hputs
  -- an encoder is closed first, and what it still gave is behind the front before the payload is finished
  cases hencoder : folder.encoder with
  | Raw =>
    rw [hencoder] at hholds
    exact hholds.elim
  | Copy writer =>
    rw [hencoder] at hholds hpayload hrun
    cases hpayload
    obtain ⟨hcodec, -⟩ := hholds
    obtain ⟨⟨packSize, info, sizes⟩, w₁, hfinish, hrun⟩ := bind_eq_ok.mp hrun
    cases hrun
    have hspecs : prepared.specs outside = .ok [.Copy] := by
      unfold PreparedArchiveOptions.specs
      rw [hcodec]
    rw [hcodec] at hputs
    have hbytes : encodedBytes outside prepared knownSize chunks = chunks.flatten := by
      unfold encodedBytes
      rw [hcodec]
    rw [encodeCoderInfoCopy_eq] at hfinish
    exact encodes_of_finish hspecs (hbytes ▸ hputs) hfinish rfl rfl rfl
  | Lzma2 known given writer =>
    rw [hencoder] at hholds hpayload hrun
    cases hpayload
    obtain ⟨hcodec, rfl, rfl, -⟩ := hholds
    obtain ⟨property, w₁, hproperty, hrun⟩ := bind_eq_ok.mp hrun
    obtain ⟨hprepared, rfl⟩ := Prod.mk.inj hproperty
    obtain ⟨closed, w₂, hclose, hrun⟩ := bind_eq_ok.mp hrun
    obtain ⟨⟨packSize, info, sizes⟩, w₃, hfinish, hrun⟩ := bind_eq_ok.mp hrun
    cases hrun
    have hspecs : prepared.specs outside = .ok [.Lzma2 property] := by
      unfold PreparedArchiveOptions.specs
      rw [hcodec]
      exact congrArg (Except.map _) hprepared
    rw [hcodec] at hputs
    have hbytes : encodedBytes outside prepared known given = (outside.lzma2 prepared known).encode given := by
      unfold encodedBytes
      rw [hcodec]
    rw [encodeCoderInfoLzma2_eq] at hfinish
    exact encodes_of_finish hspecs (hbytes ▸ closeInto_puts hputs hclose) hfinish rfl rfl rfl
  | Lzma given writer props =>
    rw [hencoder] at hholds hpayload hrun
    cases hpayload
    obtain ⟨hcodec, rfl, rfl, -⟩ := hholds
    obtain ⟨closed, w₂, hclose, hrun⟩ := bind_eq_ok.mp hrun
    obtain ⟨⟨packSize, info, sizes⟩, w₃, hfinish, hrun⟩ := bind_eq_ok.mp hrun
    cases hrun
    have hspecs : prepared.specs outside =
        .ok [.Lzma (outside.lzmaProps prepared :: toLeBytes 4 prepared.dictSize.toNat)] := by
      unfold PreparedArchiveOptions.specs
      rw [hcodec]
    rw [hcodec] at hputs
    have hbytes : encodedBytes outside prepared knownSize given = (outside.lzma prepared).encode given := by
      unfold encodedBytes
      rw [hcodec]
    rw [encodeCoderInfoLzma_eq] at hfinish
    exact encodes_of_finish hspecs (hbytes ▸ closeInto_puts hputs hclose) hfinish rfl rfl rfl
  | Ppmd order memorySize given writer props =>
    rw [hencoder] at hholds hpayload hrun
    cases hpayload
    obtain ⟨hcodec, rfl, rfl, -⟩ := hholds
    obtain ⟨closed, w₂, hclose, hrun⟩ := bind_eq_ok.mp hrun
    obtain ⟨⟨packSize, info, sizes⟩, w₃, hfinish, hrun⟩ := bind_eq_ok.mp hrun
    cases hrun
    have hspecs : prepared.specs outside = .ok [.Ppmd (order :: toLeBytes 4 memorySize.toNat)] := by
      unfold PreparedArchiveOptions.specs
      rw [hcodec]
    rw [hcodec] at hputs
    have hbytes : encodedBytes outside prepared knownSize given = (outside.ppmd order memorySize).encode given := by
      unfold encodedBytes
      rw [hcodec]
    rw [encodeCoderInfoPpmd_eq] at hfinish
    exact encodes_of_finish hspecs (hbytes ▸ closeInto_puts hputs hclose) hfinish rfl rfl rfl
  | BcjLzma2 known given writer =>
    rw [hencoder] at hholds hpayload hrun
    cases hpayload
    obtain ⟨hcodec, rfl, rfl, -⟩ := hholds
    obtain ⟨closed, w₂, hclose, hrun⟩ := bind_eq_ok.mp hrun
    obtain ⟨property, w₁, hproperty, hrun⟩ := bind_eq_ok.mp hrun
    obtain ⟨hprepared, rfl⟩ := Prod.mk.inj hproperty
    obtain ⟨⟨packSize, info, sizes⟩, w₃, hfinish, hrun⟩ := bind_eq_ok.mp hrun
    cases hrun
    have hspecs : prepared.specs outside = .ok [.Lzma2 property, .Bcj] := by
      unfold PreparedArchiveOptions.specs
      rw [hcodec]
      exact congrArg (Except.map _) hprepared
    rw [hcodec] at hputs
    have hbytes : encodedBytes outside prepared known given = (outside.bcjLzma2 prepared known).encode given := by
      unfold encodedBytes
      rw [hcodec]
    rw [encodeCoderInfoBcjLzma2_eq] at hfinish
    exact encodes_of_finish hspecs (hbytes ▸ closeInto_puts hputs hclose) hfinish rfl rfl rfl

end

end Write

end R7z
