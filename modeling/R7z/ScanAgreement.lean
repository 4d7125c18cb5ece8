import R7z.StreamInfo

/-! The scanners accept exactly what the parsers accept, and stop at the same byte. The scanners keep
running counts where the parsers keep the data, so each section is related by what the counts must
say about the data. -/

namespace R7z

open Wire Wire.Parser

section
variable {W : Window}

theorem CoderInfoRef.attributes_scans (c : Bool) : Scans W (CoderInfoRef.attributes c) :=
  .ite (fun _ => sevenzipVaruint64Decode_scans.bind fun _ =>
    (Scans.take _ _).bind fun _ => .pure _) fun _ => .pure _

theorem CoderInfoRef.parse_scans : Scans W CoderInfoRef.parse :=
  leU8_scans.bind fun _ => (Scans.take _ _).bind fun _ => (streams_scans _).bind fun _ =>
    (attributes_scans _).bind fun _ => .pure _

theorem scanCoder_scans (counts : FolderStreamCounts) : Scans W (scanCoder counts) :=
  CoderInfoRef.parse_scans.bind fun _ => counts.addCoder_scans _ _

theorem scanFolder_scans : Scans W scanFolder := by
  refine sevenzipVaruint64Decode_scans.bind fun _ => (checkedCoderCount_scans _).bind fun _ =>
    (Scans.iterate scanCoder_scans _ _).bind fun counts => counts.layout_scans.bind fun layout =>
    (Scans.skipMany (bindPair_scans counts) _).bind fun _ => ?_
  exact .ite (fun _ => (Scans.skipMany (streamIndex_scans _) _).bind fun _ => .pure _) fun _ => .pure _

theorem parseFolderDeclaration_scans : Scans W parseFolderDeclaration := by
  refine (expectProperty_scans _).bind fun _ => (expectProperty_scans _).bind fun _ =>
    sevenzipVaruint64Decode_scans.bind fun _ => leU8_scans.bind fun flag => ?_
  exact .ite (fun _ => .pure _) fun _ => .ite
    (fun _ => sevenzipVaruint64Decode_scans.bind fun _ => .pure _) fun _ => .fail _

theorem CoderInfoRef.codecId_length {s r : Slice} {ref : CoderInfoRef}
    (h : CoderInfoRef.parse s = .ok (ref, r)) : ref.codecId.bytes.length ≤ 15 := by
  obtain ⟨flags, s₁, _, h⟩ := bind_eq_ok.mp h
  obtain ⟨id, s₂, hid, h⟩ := bind_eq_ok.mp h
  obtain ⟨streams, s₃, _, h⟩ := bind_eq_ok.mp h
  obtain ⟨attrs, s₄, _, h⟩ := bind_eq_ok.mp h
  cases h
  have hlen := (take_eq_ok.mp hid).1
  have hflags : (flags &&& 0x0f).toNat ≤ 15 := by
    rw [UInt8.toNat_and]
    exact Nat.and_le_right
  exact hlen.le.trans hflags

theorem CoderInfo.parse_agrees :
    Agrees W (fun ref coder => ref.numInStreams = coder.numInStreams ∧
      ref.numOutStreams = coder.numOutStreams) CoderInfoRef.parse CoderInfo.parse := by
  refine .of_ok (fun s ref r hs h => ?_) (fun s coder r _ h => ?_)
  · obtain ⟨e, he⟩ := CoderInfoRef.parse_scans.suffix hs h
    have hlen := CoderInfoRef.codecId_length h
    refine ⟨⟨⟨ref.codecId.bytes, hlen⟩, ref.numInStreams, ref.numOutStreams,
      ref.properties.map Slice.bytes⟩, e, ?_, ⟨rfl, rfl⟩, he⟩
    rw [parse, bind_of_ok h, dif_pos hlen]
    rfl
  · obtain ⟨ref, r', h', _⟩ := bind_eq_ok.mp h
    exact ⟨ref, r', h'⟩

theorem FolderStreamCounts.addCoder_ok {counts counts' : FolderStreamCounts} {i o : UInt64}
    {s r : Slice} (h : counts.addCoder i o s = .ok (counts', r)) :
    counts' = ⟨counts.inputs + i.toNat, counts.outputs + o.toNat⟩ := by
  unfold addCoder at h
  split at h
  · cases h
  · split at h
    · cases h
    · cases h
      rfl

def CountsCoders (counts : FolderStreamCounts) (acc : FolderStreamCounts × List CoderInfo) : Prop :=
  counts = acc.1 ∧ counts.outputs = (acc.2.map fun c => c.numOutStreams.toNat).sum

theorem scanCoder_agrees (counts : FolderStreamCounts)
    (acc : FolderStreamCounts × List CoderInfo) (h : CountsCoders counts acc) :
    Agrees W CountsCoders (scanCoder counts) (Folder.parseCoder acc) := by
  obtain ⟨rfl, hsum⟩ := h
  refine CoderInfo.parse_agrees.bind fun ref coder ⟨hi, ho⟩ => ?_
  rw [hi, ho]
  refine .of_ok (fun s counts' r hs h => ?_) (fun s v r _ h => ?_)
  · obtain ⟨e, he⟩ := (acc.1.addCoder_scans _ _).suffix hs h
    refine ⟨(counts', acc.2 ++ [coder]), e, ?_, ⟨rfl, ?_⟩, he⟩
    · rw [bind_of_ok h]
      rfl
    · rw [FolderStreamCounts.addCoder_ok h, List.map_append, List.sum_append, ← hsum]
      simp
  · obtain ⟨counts', r', h', _⟩ := bind_eq_ok.mp h
    exact ⟨counts', r', h'⟩

theorem scanFolder_agrees :
    Agrees W (fun n folder => n = Folder.totalOutStreams folder) scanFolder Folder.parse := by
  refine (Agrees.of_scans sevenzipVaruint64Decode_scans).bind fun _ n => ?_
  rintro rfl
  refine (Agrees.of_scans (checkedCoderCount_scans _)).bind fun numCoders _ => ?_
  rintro rfl
  refine (Agrees.iterate (fun _ a b h => scanCoder_agrees a b h) numCoders 0 _ _
    (⟨rfl, rfl⟩ : CountsCoders .default (.default, []))).bind fun counts acc h => ?_
  obtain ⟨rfl, hsum⟩ := h
  refine (Agrees.of_scans acc.1.layout_scans).bind fun layout _ => ?_
  rintro rfl
  refine ((Agrees.of_scans (bindPair_scans acc.1)).skipMany_count layout.1).bind fun _ bindPairs _ => ?_
  split
  · exact ((Agrees.of_scans (streamIndex_scans acc.1.inputs)).skipMany_count layout.2).bind
      fun _ packed _ => .pure hsum
  · exact .pure hsum

end

/-! Folder definitions -/

/-- After `k` folders both walks have counted the same streams, and the parser kept `k` offsets. -/
def SameBlocks (k : ℕ) (a b : FolderBlocks) : Prop :=
  a.totalOutStreams = b.totalOutStreams ∧ a.offsets = none ∧
    ∃ offsets, b.offsets = some offsets ∧ offsets.length = k

theorem recordOffset_agrees {W : Window} {data : Slice} (hdata : data.bytes.length < 2 ^ 32)
    (offsets : List UInt32) : Agrees W
      (fun a b => a = none ∧ ∃ os, b = some os ∧ os.length = offsets.length + 1)
      (recordOffset data none) (recordOffset data (some offsets)) := by
  intro s _
  have hlt : data.bytes.length - s.bytes.length < 2 ^ 32 := by omega
  have h : recordOffset data (some offsets) s =
      .ok (some (offsets ++ [UInt32.ofNat (data.bytes.length - s.bytes.length)]), s) := by
    rw [recordOffset, bind_of_ok (input_apply s), u32TryFrom, if_pos hlt]
    rfl
  rw [h]
  exact .ok ⟨rfl, _, rfl, by simp⟩ (.refl s)

theorem scanFolderBlock_agrees {W : Window} {data : Slice} (hdata : data.bytes.length < 2 ^ 32)
    (k : ℕ) (a b : FolderBlocks) (h : SameBlocks k a b) :
    Agrees W (SameBlocks (k + 1)) (scanFolderBlock data a) (scanFolderBlock data b) := by
  obtain ⟨htotal, ha, offsets, hb, hlen⟩ := h
  unfold scanFolderBlock
  rw [ha, hb, htotal]
  refine (recordOffset_agrees hdata offsets).bind fun o o' ho => ?_
  obtain ⟨rfl, os, rfl, hos⟩ := ho
  refine (Agrees.of_scans (Scans.mapError scanFolder_scans)).bind fun _ n => ?_
  rintro rfl
  split
  · exact .pure ⟨rfl, rfl, os, rfl, by rw [hos, hlen]⟩
  · exact .fail _ _

theorem walkFolderBlocks_agrees {W : Window} {data : Slice} (hdata : data.bytes.length < 2 ^ 32)
    (n : ℕ) : Agrees W (SameBlocks (n + 1)) (walkFolderBlocks data n none)
      (walkFolderBlocks data n (some [])) := by
  have hstart : SameBlocks 0 ⟨none, 0⟩ ⟨some [], 0⟩ := ⟨rfl, rfl, [], rfl, rfl⟩
  refine (Agrees.iterate (fun k a b h => scanFolderBlock_agrees hdata k a b h) n 0 _ _ hstart).bind
    fun a b hab => ?_
  obtain ⟨htotal, ha, offsets, hb, hlen⟩ := hab
  rw [ha, hb]
  refine (recordOffset_agrees hdata offsets).bind fun o o' ho => ?_
  obtain ⟨rfl, os, rfl, hos⟩ := ho
  exact .pure ⟨htotal, rfl, os, rfl, by rw [hos, hlen, Nat.zero_add]⟩

inductive BlocksOutcome (data : Slice) (n : ℕ) :
    Except ErrorKind (FolderBlocks × ℕ) → Except ErrorKind (FolderBlocks × ℕ) → Prop where
  | ok {a b : FolderBlocks} {consumed : ℕ} : SameBlocks (n + 1) a b →
      consumed ≤ data.bytes.length → BlocksOutcome data n (.ok (a, consumed)) (.ok (b, consumed))
  | error {e e' : ErrorKind} : BlocksOutcome data n (.error e) (.error e')

/-- Counting the folders and keeping their offsets succeed together while the offsets fit in 32
bits, and stop at the same byte. -/
theorem scanFolderBlocks_outcome {data : Slice} (hdata : data.bytes.length < 2 ^ 32) (n : ℕ) :
    BlocksOutcome data n (scanFolderBlocks data n none) (scanFolderBlocks data n (some [])) := by
  have h := walkFolderBlocks_agrees (W := Window.all) hdata n data trivial
  unfold scanFolderBlocks
  generalize walkFolderBlocks data n none data = x at h ⊢
  generalize walkFolderBlocks data n (some []) data = y at h ⊢
  cases h with
  | error => exact .error
  | ok hab _ => exact .ok hab (Nat.sub_le ..)

/-- The header slices the parser is run on: inside their buffer, and short enough for offsets of
32 bits. -/
def headerWindow (backing : Slice) : Window := (Window.within backing).inter (Window.shorter (2 ^ 32))

def SameDefinitions (counts : ℕ × ℕ) (defs : FolderDefinitions) : Prop :=
  counts.1 = defs.numFolders.toNat ∧ counts.2 = defs.totalOutStreams ∧
    defs.folderOffsets.length = counts.1 + 1

theorem FolderSource.remainingHeader_scans {W : Window} (source : FolderSource) (n : ℕ) :
    Scans W (source.remainingHeader n) := by
  cases source with
  | inline _ => exact (Scans.take _ _).bind fun _ => .pure ()
  | external _ => exact .pure ()

theorem definitions_agree {backing : Slice} {externalData : List Slice}
    (hext : ∀ d ∈ externalData, d.bytes.length < 2 ^ 32) :
    Agrees (headerWindow backing) SameDefinitions (scanDefinitions externalData)
      (UnpackInfo.definitions backing externalData) := by
  refine (Agrees.of_scans parseFolderDeclaration_scans).bind fun decl _ => ?_
  rintro rfl
  obtain ⟨numFolders, location⟩ := decl
  -- What the definitions are read from is a slice of its own backing buffer, inline or not.
  refine Agrees.bind (R := fun a b => a = b ∧ a.bytes.bytes.length < 2 ^ 32 ∧
    (Window.within (a.backing backing)).mem a.bytes) ?_ fun source _ => ?_
  · cases location with
    | inline =>
      refine Agrees.input.bind fun here _ => ?_
      rintro ⟨rfl, hwithin, hshort⟩
      exact .pure ⟨rfl, hshort, hwithin⟩
    | external index =>
      dsimp only [FolderSource.resolve]
      cases hdata : externalData[index]? with
      | none => exact .fail _ _
      | some data => exact .pure ⟨rfl, hext data (List.mem_of_getElem? hdata), Window.within_self data⟩
  · rintro ⟨rfl, hshort, hwithin⟩
    dsimp only
    have h := scanFolderBlocks_outcome hshort numFolders.toNat
    generalize scanFolderBlocks source.bytes numFolders.toNat none = x at h ⊢
    generalize scanFolderBlocks source.bytes numFolders.toNat (some []) = y at h ⊢
    cases h with
    | error => exact .fail _ _
    | @ok a b consumed hab _ =>
      obtain ⟨htotal, _, offsets, hoffsets, hlen⟩ := hab
      have hsub := bytesSubslice_within (Window.within_take hwithin consumed)
      refine (Agrees.pure (R := fun a b => a = (_, consumed) ∧ b = (_, consumed)) ⟨rfl, rfl⟩).bind
        fun _ _ => ?_
      rintro ⟨rfl, rfl⟩
      dsimp only
      rw [hsub]
      change Agrees _ _ _ (source.remainingHeader consumed >>= _)
      refine (Agrees.of_scans (source.remainingHeader_scans consumed)).bind fun _ _ _ => .pure ?_
      refine ⟨rfl, htotal, ?_⟩
      dsimp only
      rw [hoffsets, Option.getD_some, hlen]

/-! Digests -/

section
variable {W : Window}

theorem checkedTake_agrees {α : Type} {q : NomParser α} {n : ℕ}
    (hW : ∀ s, W.mem s → s.bytes.length < usizeLimit) (hq : FixedWidth q n) :
    Agrees W (fun _ _ => True) (do let k ← checkedUsize n; let _ ← takeBytes k : NomParser Unit) q := by
  unfold checkedUsize
  split
  · have htake : FixedWidth (do let _ ← takeBytes n : NomParser Unit) n :=
      (FixedWidth.take _ n).bind fun _ => .pure ()
    exact htake.agrees hq
  · intro s hs
    obtain ⟨e, he⟩ := (hq s).2 (by have := hW s hs; omega)
    rw [he]
    exact .error

theorem optionals_width (defined : ℕ → Bool) (n : ℕ) :
    FixedWidth (optionals defined leU32 n) ((List.range n).countP defined * 4) :=
  leU32_width.optionals defined n

theorem optionals_all_width (n : ℕ) : FixedWidth (optionals (fun _ => true) leU32 n) (n * 4) := by
  have h := optionals_width (fun _ => true) n
  rwa [List.countP_true, List.length_range] at h

theorem parseDigests_agrees (hW : ∀ s, W.mem s → s.bytes.length < usizeLimit) (n : ℕ) :
    Agrees W (fun _ _ => True) (scanDigests n) (parseDigests n) := by
  refine (Agrees.of_scans leU8_scans).bind fun flag _ => ?_
  rintro rfl
  by_cases hflag : flag = 0
  · rw [if_neg (not_not_intro hflag), if_pos hflag]
    refine (Agrees.of_scans (Scans.take _ _)).bind fun bitmap _ => ?_
    rintro rfl
    exact checkedTake_agrees hW (optionals_width _ n)
  · rw [if_pos hflag, if_neg hflag]
    exact checkedTake_agrees hW (optionals_all_width n)

/-- The checks of the substream parser reject nothing that the reading itself would accept. -/
theorem checkedWidth_agrees {α : Type} {q : NomParser α} {n : ℕ} (hq : FixedWidth q n) :
    Agrees W (fun _ _ => True) (do let k ← checkedUsize n; let _ ← takeBytes k : NomParser Unit)
      (do let k ← checkedUsize n; checkRemaining k; q) := by
  unfold checkedUsize
  split
  · refine Agrees.bind (R := fun a b => a = n ∧ b = n) (.pure ⟨rfl, rfl⟩) ?_
    intro k k' ⟨hk, hk'⟩
    rw [hk, hk']
    intro s hs
    have htake : FixedWidth (do let _ ← takeBytes n : NomParser Unit) n :=
      (FixedWidth.take _ n).bind fun _ => .pure ()
    by_cases hlen : n > s.bytes.length
    · obtain ⟨e, he⟩ := (htake s).2 hlen
      have hcheck : (do checkRemaining n; q) s = .error (.error .eof) := by
        rw [checkRemaining, bind_assoc, bind_of_ok (input_apply s), if_pos hlen]
        rfl
      rw [he, hcheck]
      exact .error
    · have hcheck : (do checkRemaining n; q) s = q s := by
        rw [checkRemaining, bind_assoc, bind_of_ok (input_apply s), if_neg hlen]
        rfl
      rw [hcheck]
      exact htake.agrees hq s hs
  · exact .fail _ _

theorem parseStreamDigests_agrees (n : ℕ) :
    Agrees W (fun _ _ => True) (scanDigests n) (parseStreamDigests n) := by
  refine (Agrees.of_scans leU8_scans).bind fun flag _ => ?_
  rintro rfl
  by_cases hflag : flag = 0
  · rw [if_neg (not_not_intro hflag), if_pos hflag]
    refine (Agrees.of_scans (Scans.take _ _)).bind fun bitmap _ => ?_
    rintro rfl
    exact checkedWidth_agrees (optionals_width _ n)
  · rw [if_pos hflag, if_neg hflag]
    exact checkedWidth_agrees (optionals_all_width n)

/-! Packed streams and folders -/

theorem skipSection_agrees {σ σ' τ τ' : Type} {S : σ → σ' → Prop} {T : τ → τ' → Prop} {a : σ} {b : σ'}
    (hab : S a b) : Agrees W (SameTurn S T)
      (do skipSection; pure (.again a) : NomParser (Turn σ τ))
      (do skipSection; pure (.again b) : NomParser (Turn σ' τ')) :=
  (Agrees.of_scans skipSection_scans).bind fun _ _ _ => .pure (.again hab)

theorem packTurn_agrees (hW : ∀ s, W.mem s → s.bytes.length < usizeLimit) (n : ℕ)
    (digests : List (Option UInt32)) :
    Agrees W (SameTurn (fun _ _ => True) fun _ _ => True) (scanPackTurn n ())
      (PackInfo.turn n digests) := by
  refine (Agrees.of_scans Property.parse_scans).bind fun tag _ => ?_
  rintro rfl
  cases tag with
  | END => exact .pure (.done trivial)
  | CRC => exact (parseDigests_agrees hW n).bind fun _ _ _ => .pure (.again trivial)
  | _ => exact skipSection_agrees trivial

theorem packInfo_agrees (hW : ∀ s, W.mem s → s.bytes.length < usizeLimit) :
    Agrees W (fun _ _ => True) scanPackInfo PackInfo.parse := by
  have hvaruint : Agrees W Eq sevenzipVaruint64Decode sevenzipVaruint64Decode :=
    .of_scans sevenzipVaruint64Decode_scans
  refine (Agrees.of_scans (expectProperty_scans _)).bind fun _ _ _ => hvaruint.bind fun packPos _ _ =>
    hvaruint.bind fun n _ => ?_
  rintro rfl
  refine (Agrees.of_scans (expectProperty_scans _)).bind fun _ _ _ =>
    (hvaruint.skipMany_count _).bind fun _ packSize _ => ?_
  refine Agrees.map_right (R := fun _ _ => True) ?_ fun _ _ _ => trivial
  exact Agrees.loop (S := fun _ _ => True) (fun _ digests _ => packTurn_agrees hW n.toNat digests) trivial

theorem unpackTurn_agrees (hW : ∀ s, W.mem s → s.bytes.length < usizeLimit) (total nf : ℕ)
    (acc : List UInt64 × List (Option UInt32)) :
    Agrees W (SameTurn (fun _ _ => True) fun _ _ => True) (scanUnpackTurn total nf ())
      (UnpackInfo.turn total nf acc) := by
  refine (Agrees.of_scans Property.parse_scans).bind fun tag _ => ?_
  rintro rfl
  cases tag with
  | END => exact .pure (.done trivial)
  | CodersUnPackSize =>
    exact ((Agrees.of_scans sevenzipVaruint64Decode_scans).skipMany_count total).bind
      fun _ _ _ => .pure (.again trivial)
  | CRC => exact (parseDigests_agrees hW nf).bind fun _ _ _ => .pure (.again trivial)
  | _ => exact skipSection_agrees trivial

end

theorem headerWindow_short {backing : Slice} (s : Slice) (hs : (headerWindow backing).mem s) :
    s.bytes.length < usizeLimit :=
  lt_trans hs.2 (by decide)

theorem unpackInfo_agrees {backing : Slice} {externalData : List Slice}
    (hext : ∀ d ∈ externalData, d.bytes.length < 2 ^ 32) :
    Agrees (headerWindow backing) (fun nf info => nf = info.numFoldersUsize ∧ nf < usizeLimit)
      (scanUnpackInfoWithExternal externalData) (UnpackInfo.parseWithExternal backing externalData) := by
  refine (definitions_agree hext).bind fun counts defs hdefs => ?_
  obtain ⟨nf, total⟩ := counts
  obtain ⟨hnf, htotal, hlen⟩ := hdefs
  dsimp only at hnf htotal hlen ⊢
  rw [hnf, htotal]
  refine Agrees.bind (R := fun _ _ => True) ?_ fun _ acc _ => .pure ⟨?_, ?_⟩
  · exact Agrees.loop (S := fun _ _ => True)
      (fun _ acc _ => unpackTurn_agrees headerWindow_short _ _ acc) trivial
  · rw [UnpackInfo.numFoldersUsize]
    dsimp only
    omega
  · exact defs.numFolders.toNat_lt

/-! Substreams -/

def streamSum (counts : List UInt64) : ℕ := (counts.map UInt64.toNat).sum

def sizeSum (counts : List UInt64) : ℕ := (counts.map fun c => c.toNat - 1).sum

theorem sizeSum_le (counts : List UInt64) : sizeSum counts ≤ streamSum counts :=
  List.sum_le_sum fun _ _ => Nat.sub_le ..

theorem foldlM_checkedUsize (g : UInt64 → ℕ) : ∀ (counts : List UInt64) (t : ℕ), t < usizeLimit →
    counts.foldlM (fun total c => checkedUsize (total + g c)) t =
      checkedUsize (t + (counts.map g).sum)
  | [], t, ht => by
    rw [List.foldlM_nil, List.map_nil, List.sum_nil, Nat.add_zero, checkedUsize, if_pos ht]
  | c :: counts, t, ht => by
    rw [List.foldlM_cons, List.map_cons, List.sum_cons, ← Nat.add_assoc]
    by_cases h : t + g c < usizeLimit
    · rw [checkedUsize, if_pos h, pure_bind]
      exact foldlM_checkedUsize g counts (t + g c) h
    · rw [checkedUsize, checkedUsize, if_neg h, if_neg (by omega)]
      rfl

theorem checkedSubstreamTotal_eq (counts : List UInt64) :
    checkedSubstreamTotal counts = checkedUsize (streamSum counts) := by
  rw [checkedSubstreamTotal, foldlM_checkedUsize _ _ 0 (by decide), Nat.zero_add, streamSum]

theorem checkedSubstreamSizeCount_eq (counts : List UInt64) :
    checkedSubstreamSizeCount counts = checkedUsize (sizeSum counts) := by
  rw [checkedSubstreamSizeCount, foldlM_checkedUsize _ _ 0 (by decide), Nat.zero_add, sizeSum]

theorem checkedUsize_eq_ok {n m : ℕ} {s r : Slice} :
    checkedUsize n s = .ok (m, r) ↔ n < usizeLimit ∧ m = n ∧ r = s := by
  unfold checkedUsize
  split
  · next h => simp [h, eq_comm]
  · next h => simp [h]

theorem iterate_scanSubstreamCount : ∀ (n : ℕ) (acc acc' : SubstreamScan) (s r : Slice),
    acc.sizesToRead < usizeLimit → acc.totalStreams < usizeLimit →
    (iterate scanSubstreamCount n acc s = .ok (acc', r) ↔
      ∃ counts, count sevenzipVaruint64Decode n s = .ok (counts, r) ∧
        acc' = ⟨acc.sizesToRead + sizeSum counts, acc.totalStreams + streamSum counts⟩ ∧
        acc'.sizesToRead < usizeLimit ∧ acc'.totalStreams < usizeLimit)
  | 0, acc, acc', s, r, hsizes, htotal => by
    constructor
    · intro h
      cases h
      exact ⟨[], rfl, rfl, hsizes, htotal⟩
    · rintro ⟨counts, h, rfl, _, _⟩
      cases h
      rfl
  | n + 1, acc, acc', s, r, hsizes, htotal => by
    constructor
    · intro h
      obtain ⟨acc₁, t, h1, h2⟩ := bind_eq_ok.mp h
      obtain ⟨c, t₁, hc, h3⟩ := bind_eq_ok.mp h1
      obtain ⟨sizes, t₂, hsizes₁, h4⟩ := bind_eq_ok.mp h3
      obtain ⟨total, t₃, htotal₁, h5⟩ := bind_eq_ok.mp h4
      obtain ⟨hs, rfl, rfl⟩ := checkedUsize_eq_ok.mp hsizes₁
      obtain ⟨ht, rfl, rfl⟩ := checkedUsize_eq_ok.mp htotal₁
      cases h5
      obtain ⟨counts, hcounts, rfl, h6, h7⟩ := (iterate_scanSubstreamCount n _ _ _ _ hs ht).mp h2
      refine ⟨c :: counts, ?_, ?_, h6, h7⟩
      · exact bind_eq_ok.mpr ⟨c, _, hc, bind_eq_ok.mpr ⟨counts, _, hcounts, rfl⟩⟩
      · simp only [sizeSum, streamSum, List.map_cons, List.sum_cons, Nat.add_assoc]
    · rintro ⟨counts, h, rfl, hs, ht⟩
      obtain ⟨c, t, hc, h⟩ := bind_eq_ok.mp h
      obtain ⟨counts, t₁, hcounts, h⟩ := bind_eq_ok.mp h
      cases h
      simp only [sizeSum, streamSum, List.map_cons, List.sum_cons, ← Nat.add_assoc] at hs ht ⊢
      have hs₁ : acc.sizesToRead + (c.toNat - 1) < usizeLimit := by omega
      have ht₁ : acc.totalStreams + c.toNat < usizeLimit := by omega
      refine bind_eq_ok.mpr ⟨⟨_, _⟩, t, bind_eq_ok.mpr ⟨c, t, hc, ?_⟩,
        (iterate_scanSubstreamCount n _ _ _ _ hs₁ ht₁).mpr ⟨counts, hcounts, rfl, hs, ht⟩⟩
      exact bind_eq_ok.mpr ⟨_, t, checkedUsize_eq_ok.mpr ⟨hs₁, rfl, rfl⟩,
        bind_eq_ok.mpr ⟨_, t, checkedUsize_eq_ok.mpr ⟨ht₁, rfl, rfl⟩, rfl⟩⟩

def SameCounts (a : SubstreamScan) (b : SubstreamInfo) : Prop :=
  a.sizesToRead = sizeSum b.numUnpackStreamsPerFolder ∧
    a.totalStreams = streamSum b.numUnpackStreamsPerFolder ∧ a.totalStreams < usizeLimit

section
variable {W : Window}

theorem substreamCounts_agree (n : ℕ) (b : SubstreamInfo) :
    Agrees W (SameTurn SameCounts fun (_ : Unit) (_ : SubstreamInfo) => True)
      (do let acc ← iterate scanSubstreamCount n { sizesToRead := 0, totalStreams := 0 }
          pure (.again acc))
      (do let counts ← count sevenzipVaruint64Decode n
          let _ ← checkedSubstreamTotal counts
          pure (.again { b with numUnpackStreamsPerFolder := counts })) := by
  have hscans : Scans W (count sevenzipVaruint64Decode n) := .count sevenzipVaruint64Decode_scans n
  refine .of_ok (fun s t r hs h => ?_) (fun s t r _ h => ?_)
  · obtain ⟨acc, r', h1, h⟩ := bind_eq_ok.mp h
    cases h
    obtain ⟨counts, hcounts, rfl, h2, h3⟩ :=
      (iterate_scanSubstreamCount n _ _ _ _ (by decide) (by decide)).mp h1
    obtain ⟨e, he⟩ := hscans.suffix hs hcounts
    have hlt : streamSum counts < usizeLimit := Nat.zero_add (streamSum counts) ▸ h3
    have htotal : checkedSubstreamTotal counts r = .ok (streamSum counts, r) := by
      rw [checkedSubstreamTotal_eq]
      exact checkedUsize_eq_ok.mpr ⟨hlt, rfl, rfl⟩
    exact ⟨_, e, bind_eq_ok.mpr ⟨counts, r, hcounts, bind_eq_ok.mpr ⟨_, r, htotal, rfl⟩⟩,
      .again ⟨Nat.zero_add _, Nat.zero_add _, h3⟩, he⟩
  · obtain ⟨counts, r', hcounts, h1⟩ := bind_eq_ok.mp h
    obtain ⟨total, r'', htotal, h2⟩ := bind_eq_ok.mp h1
    cases h2
    rw [checkedSubstreamTotal_eq] at htotal
    obtain ⟨hlt, rfl, rfl⟩ := checkedUsize_eq_ok.mp htotal
    have hiter : iterate scanSubstreamCount n { sizesToRead := 0, totalStreams := 0 } s =
        .ok (⟨0 + sizeSum counts, 0 + streamSum counts⟩, r) := by
      have hle := sizeSum_le counts
      refine (iterate_scanSubstreamCount n _ _ _ _ (by decide) (by decide)).mpr
        ⟨counts, hcounts, rfl, ?_, ?_⟩ <;> dsimp only <;> omega
    exact ⟨_, r, bind_eq_ok.mpr ⟨_, r, hiter, rfl⟩⟩

theorem checkRemaining_agrees {α β : Type} {R : α → β → Prop} {p : NomParser α} {q : NomParser β}
    (h : Agrees W R p q) (n : ℕ) :
    Agrees W R (do checkRemaining n; p) (do checkRemaining n; q) := by
  have hself : Agrees W Eq (checkRemaining n) (checkRemaining n) :=
    Agrees.input.bind fun s _ => by
      rintro ⟨rfl, _⟩
      split
      · exact .fail _ _
      · exact .pure rfl
  exact hself.bind fun _ _ _ => h

theorem substreamTurn_agrees (n : ℕ) (a : SubstreamScan) (b : SubstreamInfo) (hab : SameCounts a b) :
    Agrees W (SameTurn SameCounts fun _ _ => True) (scanSubstreamTurn n a) (SubstreamInfo.turn n b) := by
  obtain ⟨hsizes, htotal, hlt⟩ := hab
  have hlt' : sizeSum b.numUnpackStreamsPerFolder < usizeLimit :=
    (sizeSum_le _).trans_lt (htotal ▸ hlt)
  refine (Agrees.of_scans Property.parse_scans).bind fun tag _ => ?_
  rintro rfl
  cases tag with
  | END => exact .pure (.done trivial)
  | NumUnPackStream => exact substreamCounts_agree n b
  | Size =>
    dsimp only
    rw [checkedSubstreamSizeCount_eq, checkedUsize, if_pos hlt', pure_bind, hsizes]
    exact checkRemaining_agrees (((Agrees.of_scans sevenzipVaruint64Decode_scans).skipMany_count _).bind
      fun _ sizes _ => .pure (.again ⟨hsizes, htotal, hlt⟩)) _
  | CRC =>
    dsimp only
    rw [checkedSubstreamTotal_eq, checkedUsize, if_pos (htotal ▸ hlt), pure_bind, ← htotal]
    have hlimit : Scans W (checkSubstreamDigestLimit a.totalStreams) :=
      .ite (fun _ => .fail _) fun _ => .pure ()
    exact (Agrees.of_scans hlimit).bind fun _ _ _ => (parseStreamDigests_agrees _).bind
      fun _ crcs _ => .pure (.again ⟨hsizes, htotal, hlt⟩)
  | _ => exact skipSection_agrees ⟨hsizes, htotal, hlt⟩

theorem substreamInfo_agrees {n : ℕ} (hn : n < usizeLimit) :
    Agrees W (fun _ _ => True) (scanSubstreamInfo n) (SubstreamInfo.parse n) := by
  have hstart : SameCounts ⟨0, n⟩ (SubstreamInfo.initial n) := by
    refine ⟨?_, ?_, hn⟩
    · simp [SubstreamInfo.initial, sizeSum]
    · simp [SubstreamInfo.initial, streamSum]
  exact (Agrees.of_scans (expectProperty_scans _)).bind fun _ _ _ =>
    Agrees.loop (fun a b hab => substreamTurn_agrees n a b hab) hstart

end

/-! The whole section -/

def SameFolders (nf : ℕ) (info : StreamInfo) : Prop :=
  nf = (info.unpackInfo.map UnpackInfo.numFoldersUsize).getD 0 ∧ nf < usizeLimit

theorem streamTurn_agrees {backing : Slice} {externalData : List Slice}
    (hext : ∀ d ∈ externalData, d.bytes.length < 2 ^ 32) (nf : ℕ) (info : StreamInfo)
    (h : SameFolders nf info) :
    Agrees (headerWindow backing) (SameTurn SameFolders fun _ _ => True)
      (scanStreamTurn externalData nf) (StreamInfo.turn backing externalData info) := by
  refine Agrees.peek_bind fun tag => ?_
  cases tag with
  | END => exact (Agrees.of_scans Property.parse_scans).bind fun _ _ _ => .pure (.done trivial)
  | PackInfo => exact (packInfo_agrees headerWindow_short).bind fun _ _ _ => .pure (.again h)
  | UnPackInfo => exact (unpackInfo_agrees hext).bind fun _ _ h => .pure (.again h)
  | SubStreamsInfo =>
    dsimp only
    rw [← h.1]
    exact (substreamInfo_agrees h.2).bind fun _ _ _ => .pure (.again h)
  | _ => exact (Agrees.of_scans Property.parse_scans).bind fun _ _ _ => skipSection_agrees h

theorem streamInfo_agrees {backing : Slice} {externalData : List Slice}
    (hext : ∀ d ∈ externalData, d.bytes.length < 2 ^ 32) :
    Agrees (headerWindow backing) (fun _ _ => True) (scanStreamInfoWithExternal externalData)
      (StreamInfo.parseWithExternal backing externalData) :=
  Agrees.loop (fun nf info h => streamTurn_agrees hext nf info h) ⟨rfl, by decide⟩

end R7z
