import R7z.Capacity

/-! The scan of the file section and its parser. The scan goes wherever the parser goes, and what it
says of external data holds of the parser. -/

namespace R7z

open Wire Wire.Parser

namespace FilesInfo

theorem turn_mirrors {numFiles : UInt64} {backing : Slice} {externalData : List Slice}
    {acc : FilesInfo × UInt32} (hacc : acc.1.numFiles = numFiles) (uses : Bool) :
    Mirrors (SameTurn (fun acc _ => acc.1.numFiles = numFiles) fun files _ => files.numFiles = numFiles)
      (turn backing externalData acc) (scanFilesTurn numFiles.toNat uses) := by
  refine (Mirrors.refl Property.parse).bind fun tag tag' htag => ?_
  obtain rfl := htag
  by_cases hend : tag = .END
  · rw [if_pos hend, if_pos hend]
    exact .pure (.done hacc)
  · rw [if_neg hend, if_neg hend]
    refine Mirrors.check fun seen _ => ?_
    refine (Mirrors.refl sevenzipVaruint64Decode).bind fun size size' hsize => ?_
    obtain rfl := hsize
    refine (Mirrors.refl (takeBytes size.toNat)).bind fun block block' hblock => ?_
    refine Mirrors.check fun files hread => ?_
    apply Mirrors.pure
    apply SameTurn.again
    exact (readProperty_numFiles hread).trans hacc

theorem parse_mirrors (backing : Slice) (externalData : List Slice) :
    Mirrors (fun files counted => files.numFiles = counted.1) (parseWithExternal backing externalData)
      scanFilesInfoWithExternal := by
  refine (Mirrors.refl _).bind fun _ _ _ => ?_
  refine (Mirrors.refl sevenzipVaruint64Decode).bind fun numFiles numFiles' hnum => ?_
  obtain rfl := hnum
  refine (Mirrors.loop (fun acc uses hacc => turn_mirrors hacc uses) rfl).bind fun files uses hfiles => ?_
  exact .pure hfiles

theorem propertyData_external (backing : Slice) (externalData : List Slice) {payload : Slice}
    (h : payload.bytes.head?.any (· ≠ 0) = false) :
    propertyData payload backing externalData = propertyData payload backing [] := by
  obtain ⟨addr, bytes⟩ := payload
  cases bytes with
  | nil => rfl
  | cons flag bytes =>
    have hflag : flag = 0 := by simpa using h
    rw [hflag]
    rfl

theorem definedProperty_external {block backing : Slice} {externalData : List Slice} {numValues : ℕ}
    (h : ∀ allDefined, block.bytes.head? = some allDefined →
      (block.bytes[(if allDefined = 0 then 2 + (numValues + 7) / 8 else 2) - 1]?).any (· ≠ 0) = false) :
    DefinedProperty.parse block numValues backing externalData =
      DefinedProperty.parse block numValues backing [] := by
  obtain ⟨addr, bytes⟩ := block
  cases bytes with
  | nil => rfl
  | cons allDefined bytes =>
    have hflag := h allDefined rfl
    unfold DefinedProperty.parse
    show (takeBytes (if allDefined = 0 then (numValues + 7) / 8 else 0) ⟨addr + 1, bytes⟩ >>= _) =
      (takeBytes (if allDefined = 0 then (numValues + 7) / 8 else 0) ⟨addr + 1, bytes⟩ >>= _)
    generalize hlen : (if allDefined = 0 then (numValues + 7) / 8 else 0) = bitmapLen
    have hindex : (if allDefined = 0 then 2 + (numValues + 7) / 8 else 2) - 1 = bitmapLen + 1 := by
      rw [← hlen]
      split
      · omega
      · rfl
    rcases htake : takeBytes bitmapLen ⟨addr + 1, bytes⟩ with e | ⟨bitmap, payload⟩
    · rfl
    · have hpayload : payload.bytes.head?.any (· ≠ 0) = false := by
        unfold takeBytes Parser.take at htake
        split at htake
        · cases htake
          show (bytes.drop bitmapLen).head?.any (· ≠ 0) = false
          rw [hindex, List.getElem?_cons_succ] at hflag
          rw [List.head?_drop]
          exact hflag
        · cases htake
      have hdata := propertyData_external backing externalData hpayload
      show (propertyData payload backing externalData >>= _) = (propertyData payload backing [] >>= _)
      rw [hdata]

theorem readProperty_external (backing : Slice) (externalData : List Slice) {files : FilesInfo}
    {tag : Property} {block : Slice}
    (h : (externalFlag tag block.bytes files.numFiles.toNat).any (· ≠ 0) = false) :
    readProperty files tag block backing externalData = readProperty files tag block backing [] := by
  have hdefined : (∀ allDefined, block.bytes.head? = some allDefined →
      (block.bytes[(if allDefined = 0 then 2 + (files.numFiles.toNat + 7) / 8 else 2) - 1]?).any
        (· ≠ 0) = false) →
      DefinedProperty.parse block files.numFiles.toNat backing externalData =
        DefinedProperty.parse block files.numFiles.toNat backing [] := definedProperty_external
  unfold externalFlag at h
  unfold readProperty
  cases tag with
  | Name =>
    have hdata := propertyData_external backing externalData h
    show (propertyData block backing externalData >>= _) = (propertyData block backing [] >>= _)
    rw [hdata]
  | CTime | ATime | MTime | StartPos | Attributes =>
    dsimp only
    rw [hdefined fun allDefined hhead => by
      rw [hhead] at h
      exact h]
  | _ => rfl

theorem turn_external {numFiles : UInt64} {backing : Slice} {externalData : List Slice}
    {acc : FilesInfo × UInt32} (hacc : acc.1.numFiles = numFiles) {uses : Bool} {s t : Slice}
    (h : scanFilesTurn numFiles.toNat uses s = .ok (.again false, t)) :
    turn backing externalData acc s = turn backing [] acc s ∧
      ∀ next r, turn backing externalData acc s = .ok (next, r) →
        r = t ∧ ∃ acc', next = .again acc' ∧ acc'.1.numFiles = numFiles := by
  unfold scanFilesTurn at h
  obtain ⟨tag, s₁, htag, h⟩ := bind_eq_ok.mp h
  by_cases hend : tag = .END
  · rw [if_pos hend] at h
    cases h
  rw [if_neg hend] at h
  obtain ⟨size, s₂, hsize, h⟩ := bind_eq_ok.mp h
  obtain ⟨block, s₃, hblock, h⟩ := bind_eq_ok.mp h
  obtain ⟨hturn, hleft⟩ := Prod.mk.inj (Except.ok.inj h)
  have hflag : (externalFlag tag block.bytes numFiles.toNat).any (· ≠ 0) = false :=
    (Bool.or_eq_false_iff.mp (Turn.again.inj hturn)).2
  rw [← hacc] at hflag
  have hread := readProperty_external backing externalData hflag
  have hrun : ∀ data, turn backing data acc s = (ofExcept (register acc.2 tag) >>= fun seen =>
      sevenzipVaruint64Decode >>= fun size => takeBytes size.toNat >>= fun block =>
        ofExcept (readProperty acc.1 tag block backing data) >>= fun files =>
          Pure.pure (Turn.again (files, seen))) s₁ := by
    intro data
    unfold turn
    rw [bind_of_ok htag, if_neg hend]
  rw [hrun, hrun]
  cases hregister : register acc.2 tag with
  | error e => exact ⟨rfl, fun next r hnext => by cases hnext⟩
  | ok seen =>
    have hseen : ∀ data, (ofExcept (.ok seen) >>= fun seen =>
        sevenzipVaruint64Decode >>= fun size => takeBytes size.toNat >>= fun block =>
          ofExcept (readProperty acc.1 tag block backing data) >>= fun files =>
            Pure.pure (Turn.again (files, seen)) : NomParser (Turn (FilesInfo × UInt32) FilesInfo)) s₁ =
        (ofExcept (readProperty acc.1 tag block backing data) >>= fun files =>
          Pure.pure (Turn.again (files, seen))) s₃ := by
      intro data
      show (sevenzipVaruint64Decode >>= _) s₁ = _
      rw [bind_of_ok hsize, bind_of_ok hblock]
    rw [hseen, hseen, hread]
    refine ⟨rfl, fun next r hnext => ?_⟩
    obtain ⟨files, t', hfiles, hnext⟩ := bind_eq_ok.mp hnext
    obtain ⟨hok, hat⟩ := ofExcept_eq_ok.mp hfiles
    obtain ⟨hturn', hleft'⟩ := Prod.mk.inj (Except.ok.inj hnext)
    refine ⟨?_, (files, seen), hturn'.symm, (readProperty_numFiles hok).trans hacc⟩
    rw [← hleft', hat, hleft]

theorem scanTurn_keeps {numFiles : ℕ} {uses uses' : Bool} {s t : Slice}
    (h : scanFilesTurn numFiles uses s = .ok (.again uses', t)) (hclear : uses' = false) :
    uses = false := by
  unfold scanFilesTurn at h
  obtain ⟨tag, s₁, htag, h⟩ := bind_eq_ok.mp h
  by_cases hend : tag = .END
  · rw [if_pos hend] at h
    cases h
  rw [if_neg hend] at h
  obtain ⟨size, s₂, hsize, h⟩ := bind_eq_ok.mp h
  obtain ⟨block, s₃, hblock, h⟩ := bind_eq_ok.mp h
  obtain ⟨hturn, -⟩ := Prod.mk.inj (Except.ok.inj h)
  rw [hclear] at hturn
  exact (Bool.or_eq_false_iff.mp (Turn.again.inj hturn)).1

theorem scanTurn_done {numFiles : ℕ} {uses found : Bool} {s t : Slice}
    (h : scanFilesTurn numFiles uses s = .ok (.done found, t)) : found = uses ∧
      ∀ backing externalData acc, turn backing externalData acc s = .ok (.done acc.1, t) := by
  unfold scanFilesTurn at h
  obtain ⟨tag, s₁, htag, h⟩ := bind_eq_ok.mp h
  by_cases hend : tag = .END
  · rw [if_pos hend] at h
    obtain ⟨hturn, hleft⟩ := Prod.mk.inj (Except.ok.inj h)
    refine ⟨(Turn.done.inj hturn).symm, fun backing externalData acc => ?_⟩
    unfold turn
    rw [bind_of_ok htag, if_pos hend, ← hleft]
    rfl
  · rw [if_neg hend] at h
    obtain ⟨size, s₂, hsize, h⟩ := bind_eq_ok.mp h
    obtain ⟨block, s₃, hblock, h⟩ := bind_eq_ok.mp h
    cases h

theorem parse_external {backing : Slice} {externalData : List Slice} {numFiles : UInt64} {s r : Slice}
    (h : scanFilesInfoWithExternal s = .ok ((numFiles, false), r)) :
    parseWithExternal backing externalData s = parseWithExternal backing [] s := by
  unfold scanFilesInfoWithExternal at h
  obtain ⟨_, s₁, htag, h⟩ := bind_eq_ok.mp h
  obtain ⟨count, s₂, hcount, h⟩ := bind_eq_ok.mp h
  obtain ⟨uses, s₃, hscan, h⟩ := bind_eq_ok.mp h
  obtain ⟨hresult, -⟩ := Prod.mk.inj (Except.ok.inj h)
  obtain ⟨-, huses⟩ := Prod.mk.inj hresult
  have hloop : loop (.error .eof) (turn backing externalData) (empty count, 0) s₂ =
      loop (.error .eof) (turn backing []) (empty count, 0) s₂ := by
    refine loop_guided (I := fun acc => acc.1.numFiles = count) (G := fun uses => uses = false)
      (E := fun uses => uses = false) ?_ ?_ ?_ ?_ rfl hscan huses
    · exact fun _ _ _ _ hturn hclear => scanTurn_keeps hturn hclear
    · exact fun _ _ _ _ hturn hclear => (scanTurn_done hturn).1.symm.trans hclear
    · exact fun acc _ _ _ _ _ hturn => ⟨acc.1, (scanTurn_done hturn).2 _ _ _, (scanTurn_done hturn).2 _ _ _⟩
    · intro acc uses s b' t hacc hturn hclear
      rw [hclear] at hturn
      exact turn_external hacc hturn
  unfold parseWithExternal
  rw [bind_of_ok htag, bind_of_ok htag, bind_of_ok hcount, bind_of_ok hcount, bind_apply, bind_apply,
    hloop]

/-- The scan of the file section goes where the parser goes and counts the same files; and where it
reports no external data, the parser does the same with any. -/
theorem scan_sound (backing : Slice) (externalData : List Slice) (s : Slice) :
    (∀ files r, parseWithExternal backing externalData s = .ok (files, r) →
      ∃ uses, scanFilesInfoWithExternal s = .ok ((files.numFiles, uses), r)) ∧
    ∀ numFiles r, scanFilesInfoWithExternal s = .ok ((numFiles, false), r) →
      ∀ other, parseWithExternal backing externalData s = parseWithExternal backing other s := by
  constructor
  · intro files r h
    obtain ⟨⟨numFiles, uses⟩, hscan, hfiles⟩ := parse_mirrors backing externalData s files r h
    have hcount : files.numFiles = numFiles := hfiles
    exact ⟨uses, by rw [hcount, hscan]⟩
  · intro numFiles r h other
    exact (parse_external h).trans (parse_external h).symm

def namedFiles : Slice :=
  ⟨0, [0x05, 0x02, 0x11, 0x09, 0x00, 0x61, 0x00, 0x00, 0x00, 0x62, 0x00, 0x00, 0x00, 0x00]⟩

theorem scan_sound_names :
    (∃ files r, parseWithExternal namedFiles [] namedFiles = .ok (files, r) ∧ files.numFiles = 2 ∧
      ∃ uses, scanFilesInfoWithExternal namedFiles = .ok ((files.numFiles, uses), r)) ∧
    scanFilesInfoWithExternal namedFiles = .ok ((2, false), ⟨14, []⟩) ∧
    ∀ other, parseWithExternal namedFiles [] namedFiles = parseWithExternal namedFiles other namedFiles := by
  obtain ⟨hparsed, hclear⟩ := scan_sound namedFiles [] namedFiles
  refine ⟨?_, ?_⟩
  · have hrun : (parseWithExternal namedFiles [] namedFiles).map (·.1.numFiles) = .ok 2 := by decide +kernel
    rcases hparse : parseWithExternal namedFiles [] namedFiles with e | ⟨files, r⟩
    · rw [hparse] at hrun
      cases hrun
    · rw [hparse] at hrun
      exact ⟨files, r, rfl, Except.ok.inj hrun, hparsed files r hparse⟩
  · have hscan : scanFilesInfoWithExternal namedFiles = .ok ((2, false), ⟨14, []⟩) := by decide +kernel
    exact ⟨hscan, hclear 2 _ hscan⟩

end FilesInfo

end R7z
