import R7z.LazySections

/-! A scan that was suspended for external folder definitions goes on where it stopped. Every turn
it took without the definitions is the turn it takes with them, so it ends as a scan that had them
from the start. -/

namespace R7z

open Wire Wire.Parser

namespace HeaderScan

variable {scan scan' : HeaderScan} {external : Option (List Slice)} {s r : Slice}

/-! Every turn takes a byte -/

theorem orParse_shortens {α : Type} {p : NomParser α} (hp : Scans Window.all p) :
    Shortens (orParse p) := .of_scans hp.mapError

theorem orParse_progresses {α : Type} {p : NomParser α} (hp : Progresses p) :
    Progresses (orParse p) := fun s v r h => hp s v r (orParse_eq_ok.mp h)

theorem moveOn_shortens (scan : HeaderScan) : Shortens scan.moveOn :=
  Shortens.input.bind fun _ => .of_scans (.pure _)

theorem scanStreams_shortens (external : Option (List Slice)) (scan : HeaderScan) :
    Shortens (scan.scanStreams external) :=
  Shortens.input.bind fun _ => (orParse_shortens (scanStreamInfo_scans _)).bind fun _ =>
    Shortens.input.bind fun _ => (Shortens.of_scans (.ofExcept _)).bind fun _ =>
      (Shortens.of_scans (.ofExcept _)).bind fun _ => .of_scans (.pure _)

theorem suspend_shortens (scan : HeaderScan) : Shortens (do
    let pending ← Parser.ofExcept scan.suspend
    pure (.done (.pending pending)) : Parser R7zError (Turn HeaderScan HeaderProgress)) :=
  (Shortens.of_scans (.ofExcept _)).bind fun _ => .of_scans (.pure _)

theorem awaits_shortens (external : Option (List Slice)) (p : NomParser Bool) :
    Shortens (awaits external p) := by
  intro s v r h
  unfold awaits at h
  split at h
  · rw [(peek_eq_ok.mp (orParse_eq_ok.mp h)).1]
  · cases h
    exact le_rfl

theorem scanFilesInfo_progresses : Progresses scanFilesInfoWithExternal := by
  have hturn (n : ℕ) (uses : Bool) : TurnScans (scanFilesTurn n uses) :=
    .tag fun tag W => .ite (fun _ => .pure _) fun _ => sevenzipVaruint64Decode_scans.bind fun _ =>
      (Scans.take _ _).bind fun _ => .pure _
  exact (expectProperty_progresses _).bind_scans fun _ => sevenzipVaruint64Decode_scans.bind fun n =>
    (TurnScans.loop (hturn n.toNat) false).bind fun _ => .pure _

theorem turn_progresses (external : Option (List Slice)) (scan : HeaderScan) :
    Progresses (scan.turn external) := by
  intro s t r h
  obtain ⟨tag, s', hpeek, h⟩ := bind_eq_ok.mp h
  have hs' : s' = s := (peek_eq_ok.mp (orParse_eq_ok.mp hpeek)).1
  rw [hs'] at h
  have htag : Progresses (orParse Property.parse) := orParse_progresses Property.parse_progresses
  cases tag with
  | END =>
    refine htag.bind_shortens (fun _ => ?_) s t r h
    exact Shortens.input.bind fun _ => .of_scans (.pure _)
  | MainStreamsInfo =>
    refine htag.bind_shortens (fun _ => (awaits_shortens _ _).bind fun waits => ?_) s t r h
    cases waits with
    | true => exact suspend_shortens scan
    | false => exact (scanStreams_shortens _ _).bind fun _ => moveOn_shortens _
  | AdditionalStreamsInfo =>
    exact htag.bind_shortens (fun _ => (scanStreams_shortens _ _).bind fun _ => moveOn_shortens _)
      s t r h
  | FilesInfo =>
    obtain ⟨here, s₁, h1, h⟩ := bind_eq_ok.mp h
    cases h1
    refine (orParse_progresses scanFilesInfo_progresses).bind_shortens (fun counted => ?_) s t r h
    obtain ⟨count, uses⟩ := counted
    dsimp only
    split
    · exact suspend_shortens scan
    · exact Shortens.input.bind fun _ => (Shortens.of_scans (.ofExcept _)).bind fun _ =>
        (Shortens.of_scans (.ofExcept _)).bind fun _ => moveOn_shortens _
  | ArchiveProperties =>
    exact htag.bind_shortens (fun _ => (orParse_shortens scanArchiveProperties_scans).bind
      fun _ => moveOn_shortens _) s t r h
  | _ =>
    exact htag.bind_shortens (fun _ => (orParse_shortens skipSection_scans).bind
      fun _ => moveOn_shortens _) s t r h

theorem turn_empty (external : Option (List Slice)) (scan : HeaderScan) (s : Slice)
    (hs : s.bytes = []) : scan.turn external s = .error .parse := by
  obtain ⟨addr, bytes⟩ := s
  subst hs
  rfl

/-! A turn without the definitions and the same turn with them -/

/-- What a scan that has the definitions ends with, where one without them did not need any. -/
def TurnWith (definitions : List Slice) :
    Turn HeaderScan HeaderProgress → Turn HeaderScan HeaderProgress
  | .done (.complete header consumed) =>
    .done (.complete { header with externalFolderData := definitions } consumed)
  | turn => turn

/-- A turn that needed no definitions; a scan that goes on stands at the section in front of it. -/
def AtSection : Turn HeaderScan HeaderProgress → Slice → Prop
  | .again next, r => next.position = next.data.bytes.length - r.bytes.length
  | .done (.complete _ _), _ => True
  | .done (.pending _), _ => False

def Resumable (definitions : List Slice) (scan : HeaderScan)
    (p q : Parser R7zError (Turn HeaderScan HeaderProgress)) : Prop :=
  ∀ s t r, p s = .ok (t, r) →
    q s = .ok (TurnWith definitions t, r) ∧ AtSection t r ∨
    ∃ pending, t = .done (.pending pending) ∧ pending.scan = scan

section
variable {definitions : List Slice} {α : Type} {f g : α → Parser R7zError (Turn HeaderScan HeaderProgress)}
variable {q : Parser R7zError (Turn HeaderScan HeaderProgress)}

theorem Resumable.bind {p p' : Parser R7zError α} (hp : Below p p')
    (hf : ∀ v, Resumable definitions scan (f v) (g v)) :
    Resumable definitions scan (p >>= f) (p' >>= g) := by
  intro s t r h
  obtain ⟨v, s', h1, h2⟩ := bind_eq_ok.mp h
  rw [bind_of_ok (hp s _ h1)]
  exact hf v s' t r h2

theorem Resumable.peek_bind {p : NomParser α} (hf : ∀ v, Resumable definitions scan (f v) q) :
    Resumable definitions scan (orParse (peek p) >>= f) q := by
  intro s t r h
  obtain ⟨v, s', h1, h2⟩ := bind_eq_ok.mp h
  have hs' : s' = s := (peek_eq_ok.mp (orParse_eq_ok.mp h1)).1
  rw [hs'] at h2
  exact hf v s t r h2

theorem Resumable.moveOn (next : HeaderScan) :
    Resumable definitions scan next.moveOn next.moveOn := by
  intro s t r h
  rw [h]
  cases h
  exact .inl ⟨rfl, rfl⟩

theorem Resumable.suspend : Resumable definitions scan (do
    let pending ← Parser.ofExcept scan.suspend
    pure (.done (.pending pending))) q := by
  intro s t r h
  obtain ⟨pending, t₁, h1, h2⟩ := bind_eq_ok.mp h
  cases h2
  exact .inr ⟨pending, rfl, suspend_scan (ofExcept_eq_ok.mp h1).1⟩

end

theorem scanStreams_below (definitions : List Slice) (scan : HeaderScan) :
    Below (scan.scanStreams none) (scan.scanStreams (some definitions)) := by
  have hscan : Below (orParse (scanStreamInfoWithExternal []))
      (orParse (scanStreamInfoWithExternal definitions)) := fun s v h =>
    orParse_eq_ok.mpr (scanStreamInfo_below definitions s v (orParse_eq_ok.mp h))
  exact Below.bind (.refl _) fun _ => hscan.bind fun _ => .refl _

theorem turn_resumable (definitions : List Slice) (scan : HeaderScan) :
    Resumable definitions scan (scan.turn none) (scan.turn (some definitions)) := by
  refine Resumable.bind (.refl _) fun tag => ?_
  cases tag with
  | END =>
    refine Resumable.bind (.refl _) fun _ => Resumable.bind (.refl _) fun afterTag => ?_
    intro s t r h
    cases h
    exact .inl ⟨rfl, trivial⟩
  | MainStreamsInfo =>
    refine Resumable.bind (.refl _) fun _ => Resumable.peek_bind fun waits => ?_
    cases waits with
    | true => exact Resumable.suspend
    | false => exact Resumable.bind (scanStreams_below definitions scan) fun _ => .moveOn _
  | AdditionalStreamsInfo =>
    exact Resumable.bind (.refl _) fun _ =>
      Resumable.bind (scanStreams_below definitions scan) fun _ => .moveOn _
  | FilesInfo =>
    refine Resumable.bind (.refl _) fun here => Resumable.bind (.refl _) fun counted => ?_
    obtain ⟨count, uses⟩ := counted
    cases uses with
    | true => exact Resumable.suspend
    | false =>
      exact Resumable.bind (.refl _) fun _ => Resumable.bind (.refl _) fun _ =>
        Resumable.bind (.refl _) fun _ => .moveOn _
  | ArchiveProperties =>
    exact Resumable.bind (.refl _) fun _ => Resumable.bind (.refl _) fun _ => .moveOn _
  | _ => exact Resumable.bind (.refl _) fun _ => Resumable.bind (.refl _) fun _ => .moveOn _

/-! The whole scan -/

structure Stands (data : Slice) (scan : HeaderScan) (s : Slice) : Prop where
  data_eq : scan.data = data
  at_input : s = ⟨data.addr + scan.position, data.bytes.drop scan.position⟩
  position_le : scan.position ≤ data.bytes.length

theorem stands_of_after {data : Slice} {pre : List UInt8} (h : data.After pre s)
    (hdata : scan.data = data) (hpos : scan.position = data.bytes.length - s.bytes.length) :
    Stands data scan s := by
  have hlen : scan.position = pre.length := by
    rw [hpos, h.1, List.length_append, Nat.add_sub_cancel]
  refine ⟨hdata, ?_, ?_⟩
  · rw [hlen, h.1, List.drop_left, ← h.2]
  · rw [hlen, h.1, List.length_append]
    exact Nat.le_add_right _ _

end HeaderScan

def HeaderProgress.resume (definitions : List Slice) :
    HeaderProgress → Except R7zError HeaderProgress
  | .complete header consumed =>
    .ok (.complete { header with externalFolderData := definitions } consumed)
  | .pending p => p.scan.advance (some definitions)

namespace HeaderScan

theorem advance_eq_loop {data : Slice} (external : Option (List Slice)) (h : Stands data scan s) :
    scan.advance external = (loop .parse (turn external) scan s).map Prod.fst := by
  obtain ⟨rfl, hs, hle⟩ := h
  rw [advance, if_pos hle, ← hs]
  cases loop .parse (turn external) scan s <;> rfl

theorem turn_stands {data : Slice} {next : HeaderScan}
    (hinv : ScanInv (fun _ => True) data scan) (hs : Stands data scan s)
    (h : scan.turn none s = .ok (.again next, r)) :
    ScanInv (fun _ => True) data next ∧ Stands data next r := by
  have hafter : data.After (data.bytes.take scan.position) s := by
    rw [hs.at_input]
    exact ⟨(List.take_append_drop ..).symm, by rw [List.length_take, Nat.min_eq_left hs.position_le]⟩
  obtain ⟨hnext, pre, hr⟩ : TurnInv (fun _ => True) data none (.again next) r :=
    turn_ok trivial hinv ⟨_, hafter⟩ h
  rcases turn_resumable [] scan s _ r h with ⟨_, hpos⟩ | ⟨pending, ht, _⟩
  · have hpos : next.position = data.bytes.length - r.bytes.length := hnext.data_eq ▸ hpos
    exact ⟨hnext, stands_of_after hr hnext.data_eq hpos⟩
  · cases ht

theorem advance_some {data : Slice} {progress : HeaderProgress} (definitions : List Slice)
    (hinv : ScanInv (fun _ => True) data scan) (hs : Stands data scan s)
    (h : scan.advance none = .ok progress) :
    scan.advance (some definitions) = progress.resume definitions := by
  rw [advance_eq_loop none hs] at h
  rw [advance_eq_loop (some definitions) hs]
  cases hloop : loop .parse (turn none) scan s with
  | error e => rw [hloop] at h; cases h
  | ok v =>
    obtain ⟨progress', r⟩ := v
    rw [hloop] at h
    cases h
    obtain ⟨last, here, ⟨_, hlast⟩, hdone, hsame⟩ := loop_stops (q := turn (some definitions))
      (I := fun scan s => ScanInv (fun _ => True) data scan ∧ Stands data scan s)
      (turn_progresses (some definitions)) (turn_empty (some definitions)) (fun scan next s r hI h => by
        rcases turn_resumable definitions scan s _ r h with ⟨hq, _⟩ | ⟨pending, ht, _⟩
        · exact ⟨hq, turn_stands hI.1 hI.2 h⟩
        · cases ht) ⟨hinv, hs⟩ hloop
    rw [hsame]
    rcases turn_resumable definitions last here _ r hdone with ⟨hq, hat⟩ | ⟨pending, ht, rfl⟩
    · cases progress' with
      | complete header consumed =>
        rw [loop_of_done (turn_progresses _) hq]
        rfl
      | pending p => exact hat.elim
    · cases ht
      exact (advance_eq_loop (some definitions) hlast).symm

end HeaderScan

def Header.scanExact (backing : Slice) (external : Option (List Slice)) : Except R7zError Header := do
  let scan ← HeaderScan.new backing
  let progress ← scan.advance external
  progress.completeExact

theorem HeaderScan.new_stands {backing : Slice} {scan : HeaderScan}
    (h : HeaderScan.new backing = .ok scan) :
    ∃ s, HeaderScan.Stands backing scan s := by
  unfold new at h
  obtain ⟨⟨tag, remaining⟩, htag, h⟩ := except_bind_eq_ok.mp h
  obtain ⟨e, he⟩ := Property.parse_scans.suffix (W := .all) trivial (orParse_eq_ok.mp htag)
  dsimp only at h
  split at h
  · cases h
    exact ⟨remaining, HeaderScan.stands_of_after he rfl rfl⟩
  · cases h

/-- What became of the scan that had no definitions, and the scan that has them from the start. -/
theorem Header.scanExact_some {backing : Slice} {scan : HeaderScan} {progress : HeaderProgress}
    (definitions : List Slice) (hnew : HeaderScan.new backing = .ok scan)
    (h : scan.advance none = .ok progress) :
    Header.scanExact backing (some definitions) =
      progress.resume definitions >>= HeaderProgress.completeExact := by
  obtain ⟨s, hs⟩ := HeaderScan.new_stands hnew
  rw [Header.scanExact, hnew, ← HeaderScan.advance_some definitions (HeaderScan.new_inv hnew) hs h]
  rfl

/-- A scan that was suspended and is then given the definitions answers what a scan that had them
from the start answers; a scan that needed none answers the same with any. -/
theorem suspended_scan_resumes (backing : Slice) (definitions : List Slice) :
    (∀ pending, Header.resolveArchive backing = .ok (.requiresExternalFolders pending) →
      pending.resolveWith (fun _ => .ok definitions) =
        Header.scanExact backing (some definitions)) ∧
    (∀ header, Header.resolveArchive backing = .ok (.complete header) →
      Header.scanExact backing (some definitions) =
        .ok { header with externalFolderData := definitions }) := by
  constructor
  · intro pending h
    obtain ⟨scan, hnew, h⟩ := except_bind_eq_ok.mp h
    obtain ⟨progress, hadv, h⟩ := except_bind_eq_ok.mp h
    rw [Header.scanExact_some definitions hnew hadv]
    cases progress with
    | pending p =>
      cases h
      rfl
    | complete header consumed =>
      cases hc : (HeaderProgress.complete header consumed).completeExact with
      | error e => rw [HeaderProgress.intoResolution, hc] at h; cases h
      | ok header' => rw [HeaderProgress.intoResolution, hc] at h; cases h
  · intro header h
    obtain ⟨scan, hnew, h⟩ := except_bind_eq_ok.mp h
    obtain ⟨progress, hadv, h⟩ := except_bind_eq_ok.mp h
    rw [Header.scanExact_some definitions hnew hadv]
    cases progress with
    | pending p => cases h
    | complete header' consumed =>
      show (HeaderProgress.complete _ consumed).completeExact = _
      unfold HeaderProgress.intoResolution HeaderProgress.completeExact at h
      unfold HeaderProgress.completeExact
      dsimp only at h ⊢
      split at h
      · next hc =>
        cases h
        rw [if_pos hc]
      · cases h

/-- A listing in front of the additional streams, and the main streams that refer to them. -/
def dependentHeader : Slice :=
  ⟨0, [0x01, 0x05, 0x01, 0x11, 0x05, 0x00, 0x61, 0x00, 0x00, 0x00, 0x00,
    0x03, 0x06, 0x00, 0x01, 0x09, 0x03, 0x00, 0x07, 0x0b, 0x01, 0x00, 0x01, 0x01, 0x00, 0x0c, 0x03,
    0x00, 0x08, 0x00, 0x00,
    0x04, 0x07, 0x0b, 0x01, 0x01, 0x00, 0x0c, 0x03, 0x00, 0x00, 0x00]⟩

def copyDefinition : Slice := ⟨0x100, [1, 1, 0]⟩

def isSuspended : Except R7zError HeaderResolution → Bool
  | .ok (.requiresExternalFolders _) => true
  | _ => false

theorem suspended_scan_resumes_dependent :
    (∃ pending, Header.resolveArchive dependentHeader = .ok (.requiresExternalFolders pending) ∧
      pending.resolveWith (fun _ => .ok [copyDefinition]) =
        Header.scanExact dependentHeader (some [copyDefinition])) ∧
    ∃ header, Header.resolveArchive ⟨0, [0x01, 0x00]⟩ = .ok (.complete header) ∧
      Header.scanExact ⟨0, [0x01, 0x00]⟩ (some [copyDefinition]) =
        .ok { header with externalFolderData := [copyDefinition] } := by
  constructor
  · have hsuspends : isSuspended (Header.resolveArchive dependentHeader) = true := by decide +kernel
    unfold isSuspended at hsuspends
    split at hsuspends
    · next pending h =>
      exact ⟨pending, h, (suspended_scan_resumes dependentHeader [copyDefinition]).1 pending h⟩
    · cases hsuspends
  · exact ⟨_, rfl, (suspended_scan_resumes ⟨0, [0x01, 0x00]⟩ [copyDefinition]).2 _ rfl⟩

example : (Header.scanExact dependentHeader (some [copyDefinition])).map
    (fun header => (header.numFiles, header.streamsInfoRange)) = .ok (1, some ⟨32, 41⟩) := by
  decide +kernel

end R7z
