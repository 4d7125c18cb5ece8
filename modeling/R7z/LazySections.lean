import R7z.Headers
import R7z.ScanAgreement

/-! A section the header scan accepted parses when it is first asked for. The scan saw the section in
front of the rest of the header and perhaps before external data was there; the parser sees the
section alone, with the data. -/

namespace R7z

open Wire Wire.Parser

/-! The scanners look at nothing past the section they accept. -/

theorem Property.peek_scans {α : Type} {W : Window} {f : Property → NomParser α}
    (hf : ∀ tag, Scans W (f tag)) (hp : ∀ tag, Progresses (f tag)) :
    Scans W (peek Property.parse >>= f) := by
  refine Scans.peek_bind Property.parse_scans hf fun s tag t w r h1 h2 => ?_
  -- The tag is one byte, and the section that reads it again takes at least that byte.
  obtain ⟨b, t', hb, h1⟩ := bind_eq_ok.mp h1
  have hlen : s.bytes.length = t'.bytes.length + 1 := by
    rw [(byte_eq_ok.mp hb).1]
    rfl
  have ht : t = t' := by
    cases hfrom : Property.fromU8 b with
    | none => rw [hfrom] at h1; cases h1
    | some p => rw [hfrom] at h1; cases h1; rfl
  have := hp tag s w r h2
  rw [ht]
  omega

theorem expectProperty_progresses (p : Property) : Progresses (expectProperty p) :=
  Property.parse_progresses.bind_scans fun _ => .ite (fun _ => .fail _) fun _ => .pure ()

theorem sevenzipVaruint64Decode_progresses : Progresses sevenzipVaruint64Decode :=
  (Progresses.byte _).bind_scans fun first => varuintTurns_scans first 8 0 0x80 0

/-- A turn of a property loop looks only at its section, and takes at least its tag. -/
def TurnScans {σ τ : Type} (turn : NomParser (Turn σ τ)) : Prop :=
  (∀ W, Scans W turn) ∧ Progresses turn

theorem TurnScans.tag {σ τ : Type} {f : Property → NomParser (Turn σ τ)}
    (hf : ∀ tag W, Scans W (f tag)) : TurnScans (Property.parse >>= f) :=
  ⟨fun W => Property.parse_scans.bind fun tag => hf tag W,
    Property.parse_progresses.bind_scans fun tag => hf tag _⟩

theorem TurnScans.peek {σ τ : Type} {f : Property → NomParser (Turn σ τ)}
    (hf : ∀ tag, TurnScans (f tag)) : TurnScans (peek Property.parse >>= f) :=
  ⟨fun W => Property.peek_scans (fun tag => (hf tag).1 W) fun tag => (hf tag).2,
    Progresses.peek_bind fun tag => (hf tag).2⟩

theorem TurnScans.loop {σ τ : Type} {eof : NomErr} {turn : σ → NomParser (Turn σ τ)} {W : Window}
    (h : ∀ acc, TurnScans (turn acc)) (acc : σ) : Scans W (loop eof turn acc) :=
  Scans.loop (fun acc => (h acc).1 W) (fun acc => (h acc).2) acc

theorem scanPackTurn_scans (n : ℕ) (acc : Unit) : TurnScans (scanPackTurn n acc) := by
  refine .tag fun tag W => ?_
  cases tag with
  | END => exact .pure _
  | CRC => exact (scanDigests_scans n).bind fun _ => .pure _
  | _ => exact skipSection_scans.bind fun _ => .pure _

theorem scanUnpackTurn_scans (total n : ℕ) (acc : Unit) : TurnScans (scanUnpackTurn total n acc) := by
  refine .tag fun tag W => ?_
  cases tag with
  | END => exact .pure _
  | CodersUnPackSize => exact (Scans.skipMany sevenzipVaruint64Decode_scans total).bind fun _ => .pure _
  | CRC => exact (scanDigests_scans n).bind fun _ => .pure _
  | _ => exact skipSection_scans.bind fun _ => .pure _

theorem scanSubstreamCount_scans {W : Window} (acc : SubstreamScan) :
    Scans W (scanSubstreamCount acc) :=
  sevenzipVaruint64Decode_scans.bind fun _ => (checkedUsize_scans _).bind fun _ =>
    (checkedUsize_scans _).bind fun _ => .pure _

theorem checkRemaining_skipMany_scans {W : Window} (n : ℕ) :
    Scans W (do checkRemaining n; skipMany sevenzipVaruint64Decode n) := by
  intro s v r hs h
  obtain ⟨_, s', hcheck, hskip⟩ := bind_eq_ok.mp h
  obtain rfl : s' = s := by
    obtain ⟨here, t, ht, hcheck⟩ := bind_eq_ok.mp hcheck
    cases ht
    split at hcheck
    · cases hcheck
    · cases hcheck
      rfl
  obtain ⟨e, he, hread⟩ := Scans.skipMany sevenzipVaruint64Decode_scans n s' v r hs hskip
  have hlen := skipMany_length sevenzipVaruint64Decode_progresses hskip
  rw [he.1, List.length_append] at hlen
  refine ⟨e, he, fun rest hW => ?_⟩
  have hle : ¬n > (e ++ rest).length := by
    rw [List.length_append]
    omega
  rw [checkRemaining, bind_assoc, bind_of_ok (input_apply _), if_neg hle]
  exact hread rest hW

theorem scanSubstreamTurn_scans (n : ℕ) (acc : SubstreamScan) :
    TurnScans (scanSubstreamTurn n acc) := by
  refine .tag fun tag W => ?_
  cases tag with
  | END => exact .pure _
  | NumUnPackStream => exact (Scans.iterate scanSubstreamCount_scans n _).bind fun _ => .pure _
  | Size =>
    have h := (checkRemaining_skipMany_scans (W := W) acc.sizesToRead).bind fun _ =>
      Scans.pure (ε := NomErr) (Turn.again acc : Turn SubstreamScan Unit)
    rwa [bind_assoc] at h
  | CRC =>
    have hlimit : Scans W (checkSubstreamDigestLimit acc.totalStreams) :=
      .ite (fun _ => .fail _) fun _ => .pure ()
    exact hlimit.bind fun _ => (scanDigests_scans _).bind fun _ => .pure _
  | _ => exact skipSection_scans.bind fun _ => .pure _

def countBlock (total : ℕ) : Parser ErrorKind ℕ := do
  let outStreams ← mapError NomErr.code scanFolder
  if total + outStreams < usizeLimit then pure (total + outStreams) else fail .tooLarge

def countBlocks (n : ℕ) (total : ℕ) : Parser ErrorKind FolderBlocks := do
  let total ← iterate countBlock n total
  pure { offsets := none, totalOutStreams := total }

theorem iterate_scanFolderBlock (data : Slice) : ∀ n total,
    iterate (scanFolderBlock data) n ⟨none, total⟩ = countBlocks n total
  | 0, _ => rfl
  | n + 1, total => by
    simp only [countBlocks, iterate, scanFolderBlock, countBlock, recordOffset, pure_bind, bind_assoc]
    refine congrArg _ (funext fun out => ?_)
    split
    · rw [pure_bind, pure_bind, iterate_scanFolderBlock data n]
      rfl
    · rfl

theorem walkFolderBlocks_none (data : Slice) (n : ℕ) :
    walkFolderBlocks data n none = countBlocks n 0 := by
  rw [walkFolderBlocks, iterate_scanFolderBlock, countBlocks, bind_assoc]
  rfl

theorem countBlocks_scans {W : Window} (n total : ℕ) : Scans W (countBlocks n total) :=
  (Scans.iterate (fun _ => (Scans.mapError scanFolder_scans).bind fun _ =>
    .ite (fun _ => .pure _) fun _ => .fail _) n total).bind fun _ => .pure _

theorem scanFolderBlocks_none {data : Slice} {n consumed : ℕ} {blocks : FolderBlocks}
    (h : scanFolderBlocks data n none = .ok (blocks, consumed)) :
    ∃ e r, data.After e r ∧ consumed = e.length ∧
      ∀ rest, scanFolderBlocks ⟨data.addr, e ++ rest⟩ n none = .ok (blocks, e.length) := by
  unfold scanFolderBlocks at h
  rw [walkFolderBlocks_none] at h
  cases hp : countBlocks n 0 data with
  | error e => rw [hp] at h; cases h
  | ok v =>
    obtain ⟨b, r⟩ := v
    rw [hp] at h
    cases h
    obtain ⟨e, he, hread⟩ := (countBlocks_scans n 0).reads hp
    refine ⟨e, r, he, ?_, fun rest => ?_⟩
    · rw [he.1, List.length_append, Nat.add_sub_cancel]
    · unfold scanFolderBlocks
      rw [walkFolderBlocks_none, hread rest]
      simp [Bind.bind, Except.bind, Pure.pure, Except.pure]

theorem scanDeclared_scans {W : Window} (externalData : List Slice)
    (declaration : UInt64 × FolderLocation) : Scans W (scanDeclared externalData declaration) := by
  obtain ⟨numFolders, location⟩ := declaration
  cases location with
  | external index =>
    dsimp only [scanDeclared, FolderSource.resolve]
    cases externalData[index]? with
    | none => exact .fail _
    | some data => exact (Scans.pure _).bind fun source =>
        (Scans.ofExcept _).bind fun _ => (source.remainingHeader_scans _).bind fun _ => .pure _
  | inline =>
    intro s v r hs h
    simp only [scanDeclared, FolderSource.resolve, bind_assoc, pure_bind, FolderSource.bytes,
      FolderSource.remainingHeader] at h ⊢
    rw [bind_of_ok (input_apply s)] at h
    cases hscan : scanFolderBlocks s numFolders.toNat none with
    | error e => rw [hscan] at h; cases h
    | ok scanned =>
      obtain ⟨blocks, consumed⟩ := scanned
      obtain ⟨e, r', he, rfl, hread⟩ := scanFolderBlocks_none hscan
      rw [hscan] at h
      have htake : take (NomErr.failure .eof) e.length s = .ok (⟨s.addr, e⟩, r') :=
        take_eq_ok.mpr ⟨rfl, rfl, he⟩
      obtain ⟨_, t, h1, h2⟩ := bind_eq_ok.mp h
      cases h1
      obtain ⟨_, t, h1, h3⟩ := bind_eq_ok.mp h2
      rw [htake] at h1
      cases h1
      cases h3
      refine ⟨e, he, fun rest hW => ?_⟩
      rw [bind_of_ok (input_apply _), hread rest]
      change (take (NomErr.failure .eof) e.length >>= _) _ = _
      rw [bind_of_ok (take_append _ _ e rest)]
      rfl

theorem parseFolderDeclaration_progresses : Progresses parseFolderDeclaration := by
  refine (expectProperty_progresses _).bind_scans fun _ => (expectProperty_scans _).bind fun _ =>
    sevenzipVaruint64Decode_scans.bind fun _ => leU8_scans.bind fun flag => ?_
  exact .ite (fun _ => .pure _) fun _ => .ite
    (fun _ => sevenzipVaruint64Decode_scans.bind fun _ => .pure _) fun _ => .fail _

theorem scanDefinitions_scans {W : Window} (externalData : List Slice) :
    Scans W (scanDefinitions externalData) :=
  parseFolderDeclaration_scans.bind fun _ => scanDeclared_scans externalData _

theorem scanDefinitions_progresses (externalData : List Slice) :
    Progresses (scanDefinitions externalData) :=
  parseFolderDeclaration_progresses.bind_scans fun _ => scanDeclared_scans externalData _

theorem scanStreamTurn_scans (externalData : List Slice) (nf : ℕ) :
    TurnScans (scanStreamTurn externalData nf) := by
  have hvaruint {W} : Scans W sevenzipVaruint64Decode := sevenzipVaruint64Decode_scans
  have hpack {W} : Scans W (do
      let _ ← sevenzipVaruint64Decode
      let numPackStreams ← sevenzipVaruint64Decode
      expectProperty .Size
      skipMany sevenzipVaruint64Decode numPackStreams.toNat
      loop (.error .eof) (scanPackTurn numPackStreams.toNat) () : NomParser Unit) :=
    hvaruint.bind fun _ => hvaruint.bind fun n => (expectProperty_scans _).bind fun _ =>
      (Scans.skipMany hvaruint _).bind fun _ => TurnScans.loop (scanPackTurn_scans n.toNat) ()
  have hunpack {W} (counts : ℕ × ℕ) : Scans W (do
      loop (.error .eof) (scanUnpackTurn counts.2 counts.1) ()
      pure counts.1 : NomParser ℕ) :=
    (TurnScans.loop (scanUnpackTurn_scans counts.2 counts.1) ()).bind fun _ => .pure _
  refine .peek fun tag => ?_
  cases tag with
  | END => exact ⟨fun W => Property.parse_scans.bind fun _ => .pure _,
      Property.parse_progresses.bind_scans fun _ => .pure _⟩
  | PackInfo => exact ⟨fun W => ((expectProperty_scans _).bind fun _ => hpack).bind fun _ => .pure _,
      ((expectProperty_progresses _).bind_scans fun _ => hpack).bind_scans fun _ => .pure _⟩
  | UnPackInfo =>
    exact ⟨fun W => ((scanDefinitions_scans externalData).bind hunpack).bind fun _ => .pure _,
      ((scanDefinitions_progresses externalData).bind_scans hunpack).bind_scans fun _ => .pure _⟩
  | SubStreamsInfo =>
    have hloop {W} : Scans W (loop (.error .eof) (scanSubstreamTurn nf) ⟨0, nf⟩) :=
      TurnScans.loop (scanSubstreamTurn_scans nf) ⟨0, nf⟩
    exact ⟨fun W => ((expectProperty_scans _).bind fun _ => hloop).bind fun _ => .pure _,
      ((expectProperty_progresses _).bind_scans fun _ => hloop).bind_scans fun _ => .pure _⟩
  | _ => exact ⟨fun W => Property.parse_scans.bind fun _ => skipSection_scans.bind fun _ => .pure _,
      Property.parse_progresses.bind_scans fun _ => skipSection_scans.bind fun _ => .pure _⟩

theorem scanStreamInfo_scans {W : Window} (externalData : List Slice) :
    Scans W (scanStreamInfoWithExternal externalData) :=
  TurnScans.loop (scanStreamTurn_scans externalData) 0

theorem scanFilesInfo_scans {W : Window} : Scans W scanFilesInfoWithExternal := by
  have hturn (n : ℕ) (uses : Bool) : TurnScans (scanFilesTurn n uses) :=
    .tag fun tag W => .ite (fun _ => .pure _) fun _ => sevenzipVaruint64Decode_scans.bind fun _ =>
      (Scans.take _ _).bind fun _ => .pure _
  exact (expectProperty_scans _).bind fun _ => sevenzipVaruint64Decode_scans.bind fun n =>
    (TurnScans.loop (hturn n.toNat) false).bind fun _ => .pure _

theorem scanArchiveProperties_scans {W : Window} : Scans W scanArchiveProperties := by
  have hturn (acc : Unit) : TurnScans (scanArchivePropertiesTurn acc) :=
    ⟨fun W => sevenzipVaruint64Decode_scans.bind fun _ => .ite (fun _ => .pure _)
      fun _ => skipSection_scans.bind fun _ => .pure _,
    sevenzipVaruint64Decode_progresses.bind_scans fun _ => .ite (fun _ => .pure _)
      fun _ => skipSection_scans.bind fun _ => .pure _⟩
  exact TurnScans.loop hturn ()

/-! External data that comes later -/

/-- A section accepted without external data refers to none, and is accepted with any. -/
theorem scanDefinitions_below (externalData : List Slice) :
    Below (scanDefinitions []) (scanDefinitions externalData) := by
  refine Below.bind (.refl _) fun decl => ?_
  obtain ⟨numFolders, location⟩ := decl
  cases location with
  | inline => exact .refl _
  | external index => exact .fail _ _

theorem scanStreamInfo_below (externalData : List Slice) :
    Below (scanStreamInfoWithExternal []) (scanStreamInfoWithExternal externalData) := by
  refine Below.loop (fun nf => Below.bind (.refl _) fun tag => ?_) 0
  cases tag with
  | UnPackInfo =>
    exact ((scanDefinitions_below externalData).bind fun _ => .refl _).bind fun _ => .refl _
  | _ => exact .refl _

/-! Ranges of the header scan -/

theorem orParse_eq_ok {α : Type} {p : NomParser α} {s : Slice} {v : α × Slice} :
    orParse p s = .ok v ↔ p s = .ok v := mapError_eq_ok

theorem HeaderScan.offsetOf_ok {scan : HeaderScan} {here : Slice} {pre : List UInt8} {n : UInt32}
    (h : scan.data.After pre here) (hok : scan.offsetOf here = .ok n) : n.toNat = pre.length := by
  have hdist : scan.data.bytes.length - here.bytes.length = pre.length := by
    rw [h.1, List.length_append, Nat.add_sub_cancel]
  unfold offsetOf at hok
  dsimp only at hok
  rw [hdist] at hok
  split at hok
  · next hlt =>
    cases hok
    exact UInt32.toNat_ofNat_of_lt' hlt
  · cases hok

/-- `range` holds a stream section that a scan with these definitions accepted to its last byte. -/
def Scanned (data : Slice) (definitions : List Slice) (range : Range) : Prop :=
  ∃ slice, range.get data = some slice ∧ (headerWindow data).mem slice ∧
    scanStreamInfoWithExternal definitions slice = .ok ((), ⟨slice.addr + slice.bytes.length, []⟩)

theorem HeaderScan.scanStreams_ok {scan : HeaderScan} {external : Option (List Slice)}
    {here r : Slice} {pre : List UInt8} {range : Range} (h : scan.data.After pre here)
    (hok : scan.scanStreams external here = .ok (range, r)) :
    Scanned scan.data (external.getD []) range ∧ ∃ pre', scan.data.After pre' r := by
  obtain ⟨afterTag, t₁, h1, hok₁⟩ := bind_eq_ok.mp hok
  cases h1
  obtain ⟨_, t₂, hscan, hok₂⟩ := bind_eq_ok.mp hok₁
  obtain ⟨remaining, t₃, h2, hok₃⟩ := bind_eq_ok.mp hok₂
  cases h2
  obtain ⟨start, t₄, h3, hok₄⟩ := bind_eq_ok.mp hok₃
  obtain ⟨hstart, rfl⟩ := ofExcept_eq_ok.mp h3
  obtain ⟨stop, t₅, h4, hok₅⟩ := bind_eq_ok.mp hok₄
  obtain ⟨hstop, rfl⟩ := ofExcept_eq_ok.mp h4
  cases hok₅
  obtain ⟨e, he, hread⟩ := (scanStreamInfo_scans (external.getD [])).reads (orParse_eq_ok.mp hscan)
  have hr := h.trans he
  have hn := HeaderScan.offsetOf_ok h hstart
  have hm := HeaderScan.offsetOf_ok hr hstop
  rw [List.length_append] at hm
  have hdata : scan.data.bytes = pre ++ e ++ r.bytes := hr.1
  refine ⟨⟨⟨here.addr, e⟩, ?_, ⟨⟨pre, r.bytes, hdata, h.2⟩, ?_⟩, ?_⟩, _, hr⟩
  · have hle : start.toNat ≤ stop.toNat ∧ stop.toNat ≤ scan.data.bytes.length := by
      rw [hdata, List.length_append, List.length_append]
      omega
    rw [Range.get, if_pos hle, hn, hm, hdata, h.2]
    simp
  · have := stop.toNat_lt
    change e.length < 2 ^ 32
    omega
  · have h := hread []
    rwa [List.append_nil] at h

/-- Every remembered stream section was accepted with some allowed definitions. -/
structure ScanInv (allowed : List Slice → Prop) (data : Slice) (scan : HeaderScan) : Prop where
  data_eq : scan.data = data
  scanned : ∀ range, scan.streamsInfoRange = some range ∨ scan.additionalStreamsRange = some range →
    ∃ definitions, allowed definitions ∧ Scanned data definitions range

def ProgressInv (allowed : List Slice → Prop) (data : Slice) (external : Option (List Slice)) :
    HeaderProgress → Prop
  | .complete header _ => ∃ scan, ScanInv allowed data scan ∧ header = scan.header external
  | .pending pending => ScanInv allowed data pending.scan

section
variable {allowed : List Slice → Prop} {data : Slice} {external : Option (List Slice)}

theorem HeaderScan.suspend_scan {scan : HeaderScan} {pending : PendingHeader}
    (h : scan.suspend = .ok pending) : pending.scan = scan := by
  unfold suspend at h
  repeat' split at h
  all_goals cases h
  rfl

def TurnInv (allowed : List Slice → Prop) (data : Slice) (external : Option (List Slice)) :
    Turn HeaderScan HeaderProgress → Slice → Prop
  | .again scan, r => ScanInv allowed data scan ∧ ∃ pre, data.After pre r
  | .done progress, _ => ProgressInv allowed data external progress

theorem After.orParse {α : Type} {p : NomParser α} {s r : Slice} {v : α} {pre : List UInt8}
    (hs : data.After pre s) (hp : Scans Window.all p) (h : orParse p s = .ok (v, r)) :
    ∃ pre', data.After pre' r := by
  obtain ⟨e, he⟩ := hp.suffix trivial (orParse_eq_ok.mp h)
  exact ⟨_, hs.trans he⟩

theorem HeaderScan.moveOn_ok {scan : HeaderScan} {t : Turn HeaderScan HeaderProgress} {s r : Slice}
    (hinv : ScanInv allowed data scan) (hs : ∃ pre, data.After pre s)
    (h : scan.moveOn s = .ok (t, r)) : TurnInv allowed data external t r := by
  cases h
  exact ⟨⟨hinv.data_eq, hinv.scanned⟩, hs⟩

theorem HeaderScan.suspend_ok {scan : HeaderScan} {s r : Slice} {t : Turn HeaderScan HeaderProgress}
    (hinv : ScanInv allowed data scan)
    (h : (do
      let pending ← Parser.ofExcept scan.suspend
      pure (.done (.pending pending)) : Parser R7zError (Turn HeaderScan HeaderProgress)) s =
        .ok (t, r)) : TurnInv allowed data external t r := by
  obtain ⟨pending, t₁, h1, h2⟩ := bind_eq_ok.mp h
  cases h2
  have h3 := suspend_scan (ofExcept_eq_ok.mp h1).1
  change ScanInv allowed data pending.scan
  rwa [h3]

theorem HeaderScan.turn_ok (hallowed : allowed (external.getD [])) {scan : HeaderScan}
    {t : Turn HeaderScan HeaderProgress} {s r : Slice} (hinv : ScanInv allowed data scan)
    (hs : ∃ pre, data.After pre s) (h : scan.turn external s = .ok (t, r)) :
    TurnInv allowed data external t r := by
  obtain ⟨pre, hs⟩ := hs
  obtain ⟨tag, s', htag, h⟩ := bind_eq_ok.mp h
  obtain ⟨rfl, _⟩ := peek_eq_ok.mp (orParse_eq_ok.mp htag)
  -- a section that is only skipped leaves the rest of the header
  have hskip {α : Type} {p : NomParser α} {f : α → Parser R7zError (Turn HeaderScan HeaderProgress)}
      {s : Slice} {pre : List UInt8} (hs : data.After pre s) (hp : Scans Window.all p)
      (h : (orParse p >>= f) s = .ok (t, r)) :
      ∃ v s₁, (∃ pre, data.After pre s₁) ∧ f v s₁ = .ok (t, r) := by
    obtain ⟨v, s₁, h1, h2⟩ := bind_eq_ok.mp h
    exact ⟨v, s₁, After.orParse hs hp h1, h2⟩
  cases tag with
  | END =>
    obtain ⟨_, s₁, _, h⟩ := hskip hs Property.parse_scans h
    cases h
    exact ⟨scan, hinv, rfl⟩
  | FilesInfo =>
    obtain ⟨here, s₁, h1, h⟩ := bind_eq_ok.mp h
    cases h1
    obtain ⟨⟨n, uses⟩, s₁, hs₁, h⟩ := hskip hs scanFilesInfo_scans h
    dsimp only at h
    split at h
    · exact suspend_ok hinv h
    · obtain ⟨_, s₂, h2, h₂⟩ := bind_eq_ok.mp h
      cases h2
      obtain ⟨start, s₃, h3, h₃⟩ := bind_eq_ok.mp h₂
      obtain ⟨_, rfl⟩ := ofExcept_eq_ok.mp h3
      obtain ⟨stop, s₄, h4, h₄⟩ := bind_eq_ok.mp h₃
      obtain ⟨_, rfl⟩ := ofExcept_eq_ok.mp h4
      have hinv' : ScanInv allowed data
          { scan with filesInfoRange := some ⟨start, stop⟩, numFiles := n } :=
        ⟨hinv.data_eq, hinv.scanned⟩
      exact moveOn_ok hinv' hs₁ h₄
  | ArchiveProperties =>
    obtain ⟨_, s₁, ⟨pre₁, hs₁⟩, h⟩ := hskip hs Property.parse_scans h
    obtain ⟨_, s₂, hs₂, h⟩ := hskip hs₁ scanArchiveProperties_scans h
    exact moveOn_ok hinv hs₂ h
  | MainStreamsInfo =>
    obtain ⟨_, s₁, ⟨pre₁, hs₁⟩, h⟩ := hskip hs Property.parse_scans h
    obtain ⟨waits, s₂, h2, h₂⟩ := bind_eq_ok.mp h
    -- the look ahead takes nothing
    have hs₂ : s₂ = s₁ := by
      unfold awaits at h2
      split at h2
      · exact (peek_eq_ok.mp (orParse_eq_ok.mp h2)).1
      · cases h2
        rfl
    rw [hs₂] at h₂
    split at h₂
    · exact suspend_ok hinv h₂
    · obtain ⟨range, s₃, h3, h₃⟩ := bind_eq_ok.mp h₂
      obtain ⟨hscanned, hs₃⟩ := scanStreams_ok (hinv.data_eq ▸ hs₁) h3
      rw [hinv.data_eq] at hscanned hs₃
      have hinv' : ScanInv allowed data { scan with streamsInfoRange := some range } := by
        refine ⟨hinv.data_eq, ?_⟩
        rintro range' (hr | hr)
        · cases hr
          exact ⟨_, hallowed, hscanned⟩
        · exact hinv.scanned range' (.inr hr)
      exact moveOn_ok hinv' hs₃ h₃
  | AdditionalStreamsInfo =>
    obtain ⟨_, s₁, ⟨pre₁, hs₁⟩, h⟩ := hskip hs Property.parse_scans h
    obtain ⟨range, s₃, h3, h⟩ := bind_eq_ok.mp h
    obtain ⟨hscanned, hs₃⟩ := scanStreams_ok (hinv.data_eq ▸ hs₁) h3
    rw [hinv.data_eq] at hscanned hs₃
    have hinv' : ScanInv allowed data { scan with additionalStreamsRange := some range } := by
      refine ⟨hinv.data_eq, ?_⟩
      rintro range' (hr | hr)
      · exact hinv.scanned range' (.inl hr)
      · cases hr
        exact ⟨_, hallowed, hscanned⟩
    exact moveOn_ok hinv' hs₃ h
  | _ =>
    obtain ⟨_, s₁, ⟨pre₁, hs₁⟩, h⟩ := hskip hs Property.parse_scans h
    obtain ⟨_, s₂, hs₂, h⟩ := hskip hs₁ skipSection_scans h
    exact moveOn_ok hinv hs₂ h

theorem HeaderScan.advance_ok (hallowed : allowed (external.getD [])) {scan : HeaderScan}
    {progress : HeaderProgress} (hinv : ScanInv allowed data scan)
    (h : scan.advance external = .ok progress) : ProgressInv allowed data external progress := by
  unfold advance at h
  split at h
  · next hle =>
    cases hloop : loop .parse (turn external) scan
        ⟨scan.data.addr + scan.position, scan.data.bytes.drop scan.position⟩ with
    | error e => rw [hloop] at h; cases h
    | ok v =>
      obtain ⟨progress', r⟩ := v
      rw [hloop] at h
      cases h
      have hs : data.After (scan.data.bytes.take scan.position)
          ⟨scan.data.addr + scan.position, scan.data.bytes.drop scan.position⟩ := by
        rw [← hinv.data_eq]
        refine ⟨(List.take_append_drop ..).symm, ?_⟩
        rw [List.length_take, Nat.min_eq_left hle]
      refine loop_ok (P := fun scan s => ScanInv allowed data scan ∧ ∃ pre, data.After pre s)
        (Q := fun progress _ => ProgressInv allowed data external progress) ?_ ?_ ⟨hinv, _, hs⟩ hloop
      · rintro scan scan' s r ⟨hinv, hs⟩ h
        exact turn_ok hallowed hinv hs h
      · rintro scan progress s r ⟨hinv, hs⟩ h
        exact turn_ok hallowed hinv hs h
  · cases h

theorem HeaderScan.new_inv {scan : HeaderScan} (h : HeaderScan.new data = .ok scan) :
    ScanInv allowed data scan := by
  unfold new at h
  cases htag : orParse Property.parse data with
  | error e => rw [htag] at h; cases h
  | ok v =>
    obtain ⟨tag, remaining⟩ := v
    rw [htag] at h
    dsimp only [Bind.bind, Except.bind] at h
    split at h
    · cases h
      exact ⟨rfl, fun range h => by rcases h with h | h <;> cases h⟩
    · cases h

end

/-! Parsing what was scanned -/

/-- The ways a header comes out of the scan of `backing`: at once, with supplied external data, or
resumed with the data that was decoded for it. -/
inductive Accepted (backing : Slice) (header : Header) : Prop where
  | parse {rest : Slice} : Header.parse backing = .ok (header, rest) → Accepted backing header
  | parseWithExternal {externalData : List Slice} {rest : Slice} :
      Header.parseWithExternal backing externalData = .ok (header, rest) → Accepted backing header
  | resolved : Header.resolveArchive backing = .ok (.complete header) → Accepted backing header
  | resumed {pending : PendingHeader} {decode : StreamInfo → Except R7zError (List Slice)} :
      Header.resolveArchive backing = .ok (.requiresExternalFolders pending) →
      pending.resolveWith decode = .ok header → Accepted backing header

theorem scanned_parses {data : Slice} {definitions externalData : List Slice} {range : Range}
    (hext : ∀ d ∈ externalData, d.bytes.length < 2 ^ 32)
    (hdefs : definitions = [] ∨ definitions = externalData) (h : Scanned data definitions range) :
    ∃ info, Header.parseSection data (some range) (StreamInfo.parseWithExternal data externalData) =
      .ok (some info) := by
  obtain ⟨slice, hget, hmem, hscan⟩ := h
  have hscan' : scanStreamInfoWithExternal externalData slice =
      .ok ((), ⟨slice.addr + slice.bytes.length, []⟩) := by
    rcases hdefs with rfl | rfl
    · exact scanStreamInfo_below externalData slice _ hscan
    · exact hscan
  obtain ⟨info, hparse, _⟩ := (streamInfo_agrees hext).ok hmem hscan'
  refine ⟨info, ?_⟩
  simp only [Header.parseSection, hget, hparse, List.isEmpty_nil, if_true]

/-- What holds of the scan from its start and through every run of it, with the external data that
run has, holds of the scan that an accepted header came out of. -/
theorem accepted_induct {backing : Slice} {header : Header}
    {I : Option (List Slice) → HeaderScan → Prop}
    (hnew : ∀ external scan, HeaderScan.new backing = .ok scan → I external scan)
    (hresume : ∀ externalData scan, I none scan → I (some externalData) scan)
    (hpending : ∀ scan pending, I none scan → scan.advance none = .ok (.pending pending) →
      I none pending.scan)
    (hcomplete : ∀ external scan header consumed, I external scan →
      scan.advance external = .ok (.complete header consumed) →
      ∃ scan, header = HeaderScan.header scan external ∧ I external scan)
    (h : Accepted backing header) :
    ∃ scan external, header = HeaderScan.header scan external ∧ I external scan := by
  -- a run without a pause
  have hfinish {external : Option (List Slice)} {rest : Slice}
      (h : Header.finish (do let scan ← HeaderScan.new backing; scan.advance external) =
        .ok (header, rest)) :
      ∃ scan, header = HeaderScan.header scan external ∧ I external scan := by
    unfold Header.finish at h
    split at h
    · next header' consumed hprogress =>
      cases h
      obtain ⟨scan, hscan, hadv⟩ := except_bind_eq_ok.mp hprogress
      exact hcomplete _ _ _ _ (hnew _ _ hscan) hadv
    · cases h
  have hexact {progress : HeaderProgress} (h : progress.completeExact = .ok header) :
      ∃ consumed, progress = .complete header consumed := by
    cases progress with
    | pending p => cases h
    | complete header' consumed =>
      simp only [HeaderProgress.completeExact] at h
      split at h
      · cases h
        exact ⟨consumed, rfl⟩
      · cases h
  cases h with
  | parse h =>
    obtain ⟨scan, hheader, hI⟩ := hfinish h
    exact ⟨scan, none, hheader, hI⟩
  | @parseWithExternal externalData _ h =>
    obtain ⟨scan, hheader, hI⟩ := hfinish h
    exact ⟨scan, some externalData, hheader, hI⟩
  | resolved h =>
    obtain ⟨scan, hscan, h⟩ := except_bind_eq_ok.mp h
    obtain ⟨progress, hadv, h⟩ := except_bind_eq_ok.mp h
    cases progress with
    | pending p => cases h
    | complete header' consumed =>
      obtain ⟨consumed', hprogress⟩ : ∃ consumed', HeaderProgress.complete header' consumed =
          .complete header consumed' := by
        refine hexact ?_
        cases hc : (HeaderProgress.complete header' consumed).completeExact with
        | error e => rw [HeaderProgress.intoResolution, hc] at h; cases h
        | ok header'' => rw [HeaderProgress.intoResolution, hc] at h; cases h; rfl
      rw [hprogress] at hadv
      obtain ⟨scan', hheader, hI⟩ := hcomplete _ _ _ _ (hnew none _ hscan) hadv
      exact ⟨scan', none, hheader, hI⟩
  | @resumed pending decode hres hresumed =>
    obtain ⟨scan, hscan, h⟩ := except_bind_eq_ok.mp hres
    obtain ⟨progress, hadv, h⟩ := except_bind_eq_ok.mp h
    -- the first run stopped where external data is needed
    have hsuspended : I none pending.scan := by
      cases progress with
      | complete header' consumed =>
        cases hc : (HeaderProgress.complete header' consumed).completeExact with
        | error e => rw [HeaderProgress.intoResolution, hc] at h; cases h
        | ok header'' => rw [HeaderProgress.intoResolution, hc] at h; cases h
      | pending p =>
        cases h
        exact hpending scan _ (hnew none _ hscan) hadv
    obtain ⟨externalData, hdecode, h⟩ := except_bind_eq_ok.mp hresumed
    obtain ⟨progress', hadv', h⟩ := except_bind_eq_ok.mp h
    obtain ⟨consumed, rfl⟩ := hexact h
    obtain ⟨scan', hheader, hI⟩ := hcomplete _ _ _ _ (hresume externalData _ hsuspended) hadv'
    exact ⟨scan', some externalData, hheader, hI⟩

theorem accepted_scan {backing : Slice} {header : Header} (h : Accepted backing header) :
    ∃ scan external, header = HeaderScan.header scan external ∧
      ScanInv (fun definitions => definitions = [] ∨ definitions = external.getD []) backing scan := by
  refine accepted_induct (I := fun external scan =>
    ScanInv (fun definitions => definitions = [] ∨ definitions = external.getD []) backing scan)
    (fun _ _ hnew => HeaderScan.new_inv hnew) ?_ ?_ ?_ h
  · intro externalData scan hinv
    refine ⟨hinv.data_eq, fun range hr => ?_⟩
    obtain ⟨definitions, hdefs, hscanned⟩ := hinv.scanned range hr
    exact ⟨definitions, .inl (hdefs.elim id id), hscanned⟩
  · intro scan pending hinv hadv
    exact HeaderScan.advance_ok (.inr rfl : (fun definitions : List Slice => definitions = [] ∨
        definitions = (none : Option (List Slice)).getD []) _) hinv hadv
  · intro external scan header consumed hinv hadv
    obtain ⟨scan', hinv', hheader⟩ := HeaderScan.advance_ok (.inr rfl) hinv hadv
    exact ⟨scan', hheader, hinv'⟩

theorem accepted_streamsInfo {backing : Slice} {header : Header} (h : Accepted backing header)
    (hext : ∀ d ∈ header.externalFolderData, d.bytes.length < 2 ^ 32) :
    ∃ info, header.tryStreamsInfo = .ok info := by
  obtain ⟨scan, external, rfl, hinv⟩ := accepted_scan h
  unfold Header.tryStreamsInfo
  cases hrange : scan.streamsInfoRange with
  | none => exact ⟨none, by simp only [HeaderScan.header, hrange, Header.parseSection]⟩
  | some range =>
    obtain ⟨definitions, hdefs, hscanned⟩ := hinv.scanned range (.inl hrange)
    obtain ⟨info, hinfo⟩ := scanned_parses hext hdefs hscanned
    refine ⟨some info, ?_⟩
    simp only [HeaderScan.header, hrange, hinv.data_eq] at hinfo ⊢
    exact hinfo

/-- The scanner and the parser of stream metadata accept the same bytes and leave the same rest; so a
header that was accepted by any entry point never fails when its stream information is asked for. -/
theorem scan_agrees_with_parse :
    (∀ (backing input : Slice) (externalData : List Slice), (Window.within backing).mem input →
      input.bytes.length < 2 ^ 32 → (∀ d ∈ externalData, d.bytes.length < 2 ^ 32) →
      ∀ rest, scanStreamInfoWithExternal externalData input = .ok ((), rest) ↔
        ∃ info, StreamInfo.parseWithExternal backing externalData input = .ok (info, rest)) ∧
    (∀ (backing : Slice) (header : Header), Accepted backing header →
      (∀ d ∈ header.externalFolderData, d.bytes.length < 2 ^ 32) →
      ∃ info, header.tryStreamsInfo = .ok info) := by
  refine ⟨fun backing input externalData hin hlen hext rest => ?_, fun backing header h hext => ?_⟩
  · have h := (streamInfo_agrees hext).ok_iff ⟨hin, hlen⟩ rest
    rw [← h]
    exact ⟨fun h => ⟨(), h⟩, fun ⟨_, h⟩ => h⟩
  · exact accepted_streamsInfo h hext

def copiedStream : List UInt8 :=
  [0x06, 0x00, 0x01, 0x09, 0x05, 0x00, 0x07, 0x0B, 0x01, 0x00, 0x01, 0x01, 0x00, 0x0C, 0x05, 0x00, 0x00]

theorem scan_agrees_with_parse_copied :
    (scanStreamInfoWithExternal [] ⟨0, copiedStream⟩ = .ok ((), ⟨17, []⟩) ↔
      ∃ info, StreamInfo.parseWithExternal ⟨0, copiedStream⟩ [] ⟨0, copiedStream⟩ =
        .ok (info, ⟨17, []⟩)) ∧
    ∃ header rest, Header.parse ⟨0, 0x01 :: 0x04 :: copiedStream ++ [0x00]⟩ = .ok (header, rest) ∧
      ∃ info, header.tryStreamsInfo = .ok info := by
  constructor
  · exact scan_agrees_with_parse.1 ⟨0, copiedStream⟩ ⟨0, copiedStream⟩ [] (Window.within_self _) (by decide)
      (fun _ h => by cases h) ⟨17, []⟩
  · have hrun : (Header.parse ⟨0, 0x01 :: 0x04 :: copiedStream ++ [0x00]⟩).map
        (·.1.externalFolderData.length) = .ok 0 := by decide +kernel
    rcases hparse : Header.parse ⟨0, 0x01 :: 0x04 :: copiedStream ++ [0x00]⟩ with e | ⟨header, rest⟩
    · rw [hparse] at hrun
      cases hrun
    · rw [hparse] at hrun
      have hnone : header.externalFolderData = [] := List.length_eq_zero_iff.mp (Except.ok.inj hrun)
      exact ⟨header, rest, rfl, scan_agrees_with_parse.2 _ header (.parse hparse)
        (fun _ h => by rw [hnone] at h; cases h)⟩

end R7z
