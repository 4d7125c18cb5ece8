import R7z.WrittenRuns

/-! The file of a finished archive, byte by byte: the signature, the packed streams, and what the signature
refers to. -/

namespace R7z

open Wire Effect Effect.Machine Write

namespace Write

/-! The end of the file -/

theorem signatureBytes_length (outside : Outside) (offset : UInt64) (nextHeader : List UInt8) :
    (signatureBytes outside offset nextHeader).length = 32 := by
  unfold signatureBytes
  simp only [List.length_append, toLeBytes_length, List.length_cons, List.length_nil]

theorem Sink.length_le_write (sink : Sink) (bytes : List UInt8) :
    sink.content.length ≤ (sink.write bytes).content.length := by
  unfold Sink.write
  simp only [List.length_append, List.length_take, List.length_replicate, List.length_drop]
  omega

/-- The streams are behind the place of the signature, over what was there; when there are none yet, nothing was
written. -/
inductive Behind (start : Sink) : List UInt8 → List UInt8 → Prop where
  | start : Behind start [] start.content
  | place {place streams : List UInt8} (hplace : place.length = 32) :
      Behind start streams (place ++ streams ++ start.content.drop (32 + streams.length))

theorem StreamsOut.behind {start output : Sink} {stored : List Stored} (h : StreamsOut start stored output) :
    Behind start (stored.flatMap Stored.packed) output.content := by
  rcases List.eq_nil_or_concat stored with rfl | ⟨before, last, hstored⟩
  · rw [h.nothing rfl]
    exact .start
  · have hsome : stored ≠ [] := by
      rw [hstored, List.concat_eq_append]
      exact List.append_ne_nil_of_right_ne_nil _ (List.cons_ne_nil _ _)
    have hcontent := (h.streams hsome).content
    unfold packedFront at hcontent
    rw [List.length_append, List.length_replicate] at hcontent
    rw [hcontent]
    exact .place List.length_replicate

theorem Behind.length_le {start : Sink} {streams content : List UInt8} (h : Behind start streams content) :
    streams.length ≤ content.length := by
  cases h with
  | start => exact Nat.zero_le _
  | place hplace =>
    rw [List.length_append, List.length_append]
    omega

theorem Behind.write {start sink : Sink} {streams bytes : List UInt8} (h : Behind start streams sink.content) :
    ∃ place, place.length = 32 ∧ ((sink.seek (32 + streams.length)).write bytes).content =
      place ++ (streams ++ bytes) ++ start.content.drop (32 + (streams ++ bytes).length) := by
  generalize hcontent : sink.content = content at h
  cases h with
  | start =>
    refine ⟨start.content.take 32 ++ List.replicate (32 - start.content.length) 0, ?_, ?_⟩
    · rw [List.length_append, List.length_take, List.length_replicate]
      omega
    · change sink.content.take 32 ++ List.replicate (32 - sink.content.length) 0 ++ bytes ++
        sink.content.drop (32 + bytes.length) = _
      rw [hcontent]
      rfl
  | @place place streams hplace =>
    refine ⟨place, hplace, ?_⟩
    have hposition : (sink.seek (32 + streams.length)).position = (place ++ streams).length := by
      rw [List.length_append, hplace]
      rfl
    have hbefore : (sink.seek (32 + streams.length)).content = place ++ streams ++ start.content.drop (32 + streams.length) :=
      hcontent
    have hlength : 32 + (streams ++ bytes).length = 32 + streams.length + bytes.length := by
      rw [List.length_append, Nat.add_assoc]
    rw [Sink.write_content hbefore hposition, List.drop_drop, hlength, List.append_assoc place]

theorem Behind.write_behind {start sink : Sink} {streams bytes : List UInt8} (h : Behind start streams sink.content) :
    Behind start (streams ++ bytes) ((sink.seek (32 + streams.length)).write bytes).content := by
  obtain ⟨place, hplace, hcontent⟩ := h.write
  rw [hcontent]
  exact .place hplace

section
variable {outside : Outside} {prepared : PreparedArchiveOptions} {w w' : ArchiveWriter}

theorem writeAll_ok {bytes : List UInt8} (hsome : bytes ≠ []) (h : writeAll outside bytes w = (.ok (), w')) :
    w'.output = w.output.write bytes := by
  unfold writeAll at h
  rw [if_neg (fun hempty => hsome (List.isEmpty_iff.mp hempty))] at h
  obtain ⟨fault, w₁, hfault, h⟩ := bind_eq_ok.mp h
  cases hfault
  cases hwritten : outside.fault w.clock with
  | none =>
    rw [hwritten] at h
    cases h
    rfl
  | some fault =>
    rw [hwritten] at h
    cases h

theorem seek_ok {position : ℕ} (h : seek outside position w = (.ok (), w')) :
    w'.output = w.output.seek position := by
  obtain ⟨_, w₁, hexternal, h⟩ := bind_eq_ok.mp h
  cases h
  have houtput : w₁.output = w.output := congrArg (fun kept => kept.2.2.2) (external_inside.ok hexternal)
  change w₁.output.seek position = _
  rw [houtput]

/-! The header -/

/-- What is written behind the packed streams before the next header, and the next header itself: nothing and the
header, or the encoded header and its description. -/
inductive Placed (outside : Outside) (prepared : PreparedArchiveOptions) (numEntries : ℕ) (header : List UInt8)
    (packedSize : UInt64) : List UInt8 → List UInt8 → Prop where
  | plain (hmode : prepared.headerMode = .Plain ∨
        prepared.headerMode = .P7zipDefault ∧ numEntries ≤ 1 ∧ prepared.encryption = none) :
      Placed outside prepared numEntries header packedSize [] header
  | encoded {packed : List UInt8} {cipher : Option EncryptedPayload} (hmode : prepared.headerMode = .Encoded ∨
        prepared.headerMode = .P7zipDefault ∧ (1 < numEntries ∨ prepared.encryption.isSome))
      (hpacks : Packs outside { prepared with encryption := prepared.encryption.filter PreparedEncryption.encryptHeader }
        (outside.compressLzma header).2 cipher packed) :
      Placed outside prepared numEntries header packedSize packed
        (buildEncodedHeaderDescriptor packedSize (UInt64.ofNat packed.length)
          (cipher.elim (encodeCoderInfoLzma (outside.compressLzma header).1) fun c =>
            encodeCoderInfoAesThen [.Lzma (outside.compressLzma header).1] c.props)
          ((cipher.map EncryptedPayload.plaintextSize).toList ++ [UInt64.ofNat header.length]))

theorem makeAesMaterial_output {encryption : PreparedEncryption} {material : List UInt8 × List UInt8 × List UInt8}
    (h : makeAesMaterial outside encryption w = (.ok material, w')) : w'.output = w.output := by
  have hexternal : Keeps ArchiveWriter.output (external outside) := external_still fun _ _ => rfl
  have hrandom : ∀ n, Keeps ArchiveWriter.output (randomBytes outside n) := fun n =>
    hexternal.bind fun _ => Keeps.get.bind fun _ => Keeps.pure _
  have hkeeps : Keeps ArchiveWriter.output (makeAesMaterial outside encryption) :=
    (hrandom _).bind fun _ => (hrandom _).bind fun _ => hexternal.bind fun _ => Keeps.pure _
  exact hkeeps.ok h

theorem encodeHeaderStream_packs {header : List UInt8} {encoded : EncodedHeader}
    (h : encodeHeaderStream outside header prepared w = (.ok encoded, w')) : w'.output = w.output ∧
      ∃ cipher, Packs outside
          { prepared with encryption := prepared.encryption.filter PreparedEncryption.encryptHeader }
          (outside.compressLzma header).2 cipher encoded.packed ∧
        encoded.coderInfo = (cipher.elim (encodeCoderInfoLzma (outside.compressLzma header).1) fun c =>
          encodeCoderInfoAesThen [.Lzma (outside.compressLzma header).1] c.props) ∧
        encoded.unpackSizes = (cipher.map EncryptedPayload.plaintextSize).toList ++ [UInt64.ofNat header.length] := by
  obtain ⟨_, w₁, hexternal, h⟩ := bind_eq_ok.mp h
  have houtput : w₁.output = w.output := congrArg (fun kept => kept.2.2.2) (external_inside.ok hexternal)
  dsimp only at h
  cases hencryption : prepared.encryption.filter PreparedEncryption.encryptHeader with
  | none =>
    rw [hencryption] at h
    cases h
    exact ⟨houtput, none, .plain rfl, rfl, rfl⟩
  | some encryption =>
    rw [hencryption] at h
    obtain ⟨⟨key, iv, props⟩, w₂, hmaterial, h⟩ := bind_eq_ok.mp h
    obtain ⟨_, w₃, hsecond, h⟩ := bind_eq_ok.mp h
    cases h
    have houtput' : w'.output = w₂.output := congrArg (fun kept => kept.2.2.2) (external_inside.ok hsecond)
    refine ⟨houtput'.trans ((makeAesMaterial_output hmaterial).trans houtput),
      some { plaintextSize := UInt64.ofNat (outside.compressLzma header).2.length, props }, ?_, rfl, rfl⟩
    exact .cipher rfl (makeAesMaterial_keyed hmaterial) rfl List.flatten_singleton

theorem placeEncoded_places {header nextHeader : List UInt8} {packedSize offset : UInt64} {numEntries : ℕ}
    (hmode : prepared.headerMode = .Encoded ∨
      prepared.headerMode = .P7zipDefault ∧ (1 < numEntries ∨ prepared.encryption.isSome))
    (h : (do
      let encoded ← encodeHeaderStream outside header prepared
      seek outside (32 + packedSize.toNat)
      writeAll outside encoded.packed
      pure (buildEncodedHeaderDescriptor packedSize (UInt64.ofNat encoded.packed.length) encoded.coderInfo
        encoded.unpackSizes, packedSize + UInt64.ofNat encoded.packed.length)) w = (.ok (nextHeader, offset), w')) :
    ∃ behind, Placed outside prepared numEntries header packedSize behind nextHeader ∧
      offset = packedSize + UInt64.ofNat behind.length ∧
      (behind = [] ∧ w'.output.content = w.output.content ∨
        w'.output = (w.output.seek (32 + packedSize.toNat)).write behind) := by
  obtain ⟨encoded, w₁, hstream, h⟩ := bind_eq_ok.mp h
  obtain ⟨_, w₂, hseek, h⟩ := bind_eq_ok.mp h
  obtain ⟨_, w₃, hwrite, h⟩ := bind_eq_ok.mp h
  cases h
  obtain ⟨houtput, cipher, hpacks, hinfo, hsizes⟩ := encodeHeaderStream_packs hstream
  refine ⟨encoded.packed, ?_, rfl, ?_⟩
  · rw [hinfo, hsizes]
    exact .encoded hmode hpacks
  · by_cases hnone : encoded.packed = []
    · -- then `write_all` does not write, and the seek shows nowhere
      rw [hnone] at hwrite
      cases hwrite
      refine .inl ⟨hnone, ?_⟩
      rw [seek_ok hseek, houtput]
      rfl
    · refine .inr ?_
      rw [writeAll_ok hnone hwrite, seek_ok hseek, houtput]

theorem placeHeader_places {header nextHeader : List UInt8} {packedSize offset : UInt64} {numEntries : ℕ}
    (h : placeHeader outside header packedSize numEntries prepared w = (.ok (nextHeader, offset), w')) :
    ∃ behind, Placed outside prepared numEntries header packedSize behind nextHeader ∧
      offset = packedSize + UInt64.ofNat behind.length ∧
      (behind = [] ∧ w'.output.content = w.output.content ∨
        w'.output = (w.output.seek (32 + packedSize.toNat)).write behind) := by
  unfold placeHeader at h
  cases hmode : prepared.headerMode with
  | Plain =>
    rw [hmode] at h
    cases h
    exact ⟨[], .plain (.inl hmode), (UInt64.add_zero _).symm, .inl ⟨rfl, rfl⟩⟩
  | Encoded =>
    rw [hmode] at h
    exact placeEncoded_places (.inl hmode) h
  | P7zipDefault =>
    rw [hmode] at h
    dsimp only at h
    split at h
    · next hencode =>
      have heither : 1 < numEntries ∨ prepared.encryption.isSome := by simpa using hencode
      exact placeEncoded_places (.inr ⟨hmode, heither⟩) h
    · next hdefault =>
      have hboth : numEntries ≤ 1 ∧ prepared.encryption = none := by simpa using hdefault
      cases h
      exact ⟨[], .plain (.inr ⟨hmode, hboth⟩), (UInt64.add_zero _).symm, .inl ⟨rfl, rfl⟩⟩

theorem Placed.ne_nil {numEntries : ℕ} {header behind nextHeader : List UInt8} {packedSize : UInt64}
    (h : Placed outside prepared numEntries header packedSize behind nextHeader) (hheader : header ≠ []) :
    nextHeader ≠ [] := by
  cases h with
  | plain => exact hheader
  | encoded => exact List.append_ne_nil_of_left_ne_nil (by simp) _

/-- The rest of the archive, written behind the streams: the header as it is placed, and the signature that refers
to it. -/
theorem writeNextHeader_content {start : Sink} {streams header : List UInt8} {size : UInt64} {numEntries : ℕ}
    (hbehind : Behind start streams w.output.content) (hsize : streams.length < 2 ^ 64 → size.toNat = streams.length)
    (hheader : header ≠ []) (h : writeNextHeader outside header size numEntries prepared w = (.ok (), w'))
    (hlimit : w'.output.content.length < 2 ^ 64) :
    ∃ behind nextHeader, Placed outside prepared numEntries header (UInt64.ofNat streams.length) behind nextHeader ∧
      w'.output.content = signatureBytes outside (UInt64.ofNat (streams ++ behind).length) nextHeader ++
        (streams ++ behind ++ nextHeader) ++ start.content.drop (32 + (streams ++ behind ++ nextHeader).length) := by
  obtain ⟨⟨nextHeader, offset⟩, w₁, hplace, h⟩ := bind_eq_ok.mp h
  obtain ⟨_, w₂, hseek, h⟩ := bind_eq_ok.mp h
  obtain ⟨_, w₃, hwrite, h⟩ := bind_eq_ok.mp h
  obtain ⟨_, w₄, hfront, h⟩ := bind_eq_ok.mp h
  obtain ⟨_, w₅, hsign, h⟩ := bind_eq_ok.mp h
  obtain ⟨_, w₆, hflush, h⟩ := bind_eq_ok.mp h
  have houtput : w'.output = w₅.output :=
    (congrArg (fun kept => kept.2.2.2) (external_inside.ok h)).trans
      (congrArg (fun kept => kept.2.2.2) (external_inside.ok hflush))
  obtain ⟨behind, hplaced, hoffset, hbefore⟩ := placeHeader_places hplace
  have hnext : nextHeader ≠ [] := hplaced.ne_nil hheader
  have hsignature : signatureBytes outside offset nextHeader ≠ [] :=
    List.ne_nil_of_length_pos (by rw [signatureBytes_length]; decide)
  have hcontent : w'.output =
      ((((w₁.output.seek (32 + offset.toNat)).write nextHeader).seek 0).write
        (signatureBytes outside offset nextHeader)) := by
    rw [houtput, writeAll_ok hsignature hsign, seek_ok hfront, writeAll_ok hnext hwrite, seek_ok hseek]
  -- no write makes the output shorter, so the sizes so far fit in their fields
  have hgrows : w₁.output.content.length ≤ w'.output.content.length := by
    rw [hcontent]
    exact (Sink.length_le_write (w₁.output.seek (32 + offset.toNat)) nextHeader).trans
      (Sink.length_le_write (((w₁.output.seek (32 + offset.toNat)).write nextHeader).seek 0) _)
  have hfirst : w.output.content.length ≤ w₁.output.content.length := by
    rcases hbefore with ⟨-, hsame⟩ | hwritten
    · rw [hsame]
    · rw [hwritten]
      exact Sink.length_le_write (w.output.seek (32 + size.toNat)) behind
  have hsmall : streams.length < 2 ^ 64 := (hbehind.length_le.trans (hfirst.trans hgrows)).trans_lt hlimit
  have hplace' := hsize hsmall
  have hstreams : Behind start (streams ++ behind) w₁.output.content := by
    rcases hbefore with ⟨rfl, hsame⟩ | hwritten
    · rw [hsame, List.append_nil]
      exact hbehind
    · rw [hwritten, hplace']
      exact hbehind.write_behind
  have htotal : (streams ++ behind).length < 2 ^ 64 := (hstreams.length_le.trans hgrows).trans_lt hlimit
  have hsized : size = UInt64.ofNat streams.length := by
    rw [← hplace', UInt64.ofNat_toNat]
  have hoffset' : offset = UInt64.ofNat (streams ++ behind).length := by
    rw [hoffset, hsized, List.length_append, UInt64.ofNat_add]
  have hposition : offset.toNat = (streams ++ behind).length := by
    rw [hoffset']
    exact UInt64.toNat_ofNat_of_lt' htotal
  refine ⟨behind, nextHeader, hsized ▸ hplaced, ?_⟩
  rw [hposition] at hcontent
  obtain ⟨place, hlength, hwritten⟩ := @Behind.write _ _ _ nextHeader hstreams
  -- the signature goes over the 32 bytes that were left for it
  have hsigned : w'.output.content = signatureBytes outside offset nextHeader ++
      ((w₁.output.seek (32 + (streams ++ behind).length)).write nextHeader).content.drop 32 := by
    have hfront := @Sink.write_content (((w₁.output.seek (32 + (streams ++ behind).length)).write nextHeader).seek 0)
      [] _ (List.nil_append _).symm rfl (signatureBytes outside offset nextHeader)
    rw [hcontent, hfront, signatureBytes_length]
    rfl
  rw [hsigned, hwritten, hoffset', List.append_assoc place, List.drop_left' hlength, ← List.append_assoc]

end

/-! What a run puts out -/

theorem packSizes_stored {outside : Outside} {prepared : PreparedArchiveOptions} {stored : List Stored}
    {folders : List CompletedFolder} (h : List.Forall₂ (Stored.In outside prepared) stored folders)
    (hlimit : (stored.flatMap Stored.packed).length < 2 ^ 64) :
    ((packedSizes folders).map UInt64.toNat).sum = (stored.flatMap Stored.packed).length := by
  induction h with
  | nil => rfl
  | @cons stored folder rest folders hfirst _ ih =>
    rw [List.flatMap_cons, List.length_append] at hlimit
    obtain ⟨chunks, -, hencodes⟩ := hfirst.encodes
    have hpacked : packedSizes (folder :: folders) = UInt64.ofNat stored.packed.length :: packedSizes folders := by
      unfold packedSizes
      rw [List.flatMap_cons, hencodes.packSizes]
      rfl
    rw [hpacked, List.map_cons, List.sum_cons, ih (by omega), List.flatMap_cons, List.length_append,
      UInt64.toNat_ofNat_of_lt' (show stored.packed.length < 2 ^ 64 by omega)]

/-- After any calls, some of which may have failed, the file of a finished archive is the signature, the packed
streams of its folders one after the other, each the encoding of the data of its files, and the header, over what
was in the file before. -/
theorem finished_output (outside : Outside) (output : Sink) (prepared : PreparedArchiveOptions)
    (prepare : List PrepareCall) (calls : List WriterCall) {given : List Given} {w' : ArchiveWriter}
    (hgiven : writerGiven outside prepare calls (ArchiveWriter.new output prepared) = given)
    (hfinish : ArchiveWriter.finish outside
      (writerAfter outside prepare calls (ArchiveWriter.new output prepared)) = (.ok (), w'))
    (hlimit : w'.output.content.length < 2 ^ 64) :
    ∃ entries stored folders, Finished outside (optionsAfter prepared prepare) output given entries stored folders w' ∧
      ∃ behind nextHeader, Placed outside (optionsAfter prepared prepare) entries.length (buildHeader entries folders)
          (UInt64.ofNat (stored.flatMap Stored.packed).length) behind nextHeader ∧
        w'.output.content =
          signatureBytes outside (UInt64.ofNat (stored.flatMap Stored.packed ++ behind).length) nextHeader ++
            (stored.flatMap Stored.packed ++ behind ++ nextHeader) ++
            output.content.drop (32 + (stored.flatMap Stored.packed ++ behind ++ nextHeader).length) := by
  obtain ⟨entries, stored, folders, hfinished⟩ := writer_finishes hfinish
  rw [hgiven] at hfinished
  refine ⟨entries, stored, folders, hfinished, ?_⟩
  obtain ⟨size, w, hout, hpacked, hwrite⟩ := hfinished.written
  refine writeNextHeader_content hout.behind (fun hsmall => ?_) ?_ hwrite hlimit
  · rw [packedSize_toNat hpacked]
    exact packSizes_stored hfinished.stores hsmall
  · rw [buildHeader_eq]
    exact List.append_ne_nil_of_left_ne_nil (List.append_ne_nil_of_left_ne_nil (List.cons_ne_nil _ _) _) _

theorem finished_output_two : ∃ w' entries stored folders,
    Finished plainOutside plainPrepared ⟨[], 0⟩ twoGiven entries stored folders w' ∧
      ∃ behind nextHeader, Placed plainOutside plainPrepared entries.length (buildHeader entries folders)
          (UInt64.ofNat (stored.flatMap Stored.packed).length) behind nextHeader ∧
        w'.output.content =
          signatureBytes plainOutside (UInt64.ofNat (stored.flatMap Stored.packed ++ behind).length) nextHeader ++
            (stored.flatMap Stored.packed ++ behind ++ nextHeader) ++
            [].drop (32 + (stored.flatMap Stored.packed ++ behind ++ nextHeader).length) := by
  have hok : (ArchiveWriter.finish plainOutside (writerAfter plainOutside []
      [.append "a" [.ok [1, 2], .ok [3]], .appendDirectory "d" EntryMeta.default]
      (ArchiveWriter.new ⟨[], 0⟩ plainPrepared))).1.isOk := by decide +kernel
  have hlimit : (ArchiveWriter.finish plainOutside (writerAfter plainOutside []
      [.append "a" [.ok [1, 2], .ok [3]], .appendDirectory "d" EntryMeta.default]
      (ArchiveWriter.new ⟨[], 0⟩ plainPrepared))).2.output.content.length < 2 ^ 64 := by decide +kernel
  obtain ⟨w', hfinish⟩ := exists_of_isOk hok
  have hgiven : writerGiven plainOutside [] [.append "a" [.ok [1, 2], .ok [3]], .appendDirectory "d" EntryMeta.default]
      (ArchiveWriter.new ⟨[], 0⟩ plainPrepared) = twoGiven := by decide +kernel
  rw [hfinish] at hlimit
  exact ⟨w', finished_output plainOutside ⟨[], 0⟩ plainPrepared [] _ hgiven hfinish hlimit⟩

end Write

end R7z
