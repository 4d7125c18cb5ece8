import R7z.Effect.Reader
import R7z.Order.Pieces
import R7z.SignatureScan
import R7z.Write.Encode

/-! An archive in volumes: the library writes them while it copies the archive, the command line from a
file, and they are read as one source. -/

namespace R7z

open Effect Effect.Machine Effect.Reader Pieces
open Write (NonZeroU64)

/-! How many there are -/

def divCeil (a b : ℕ) : ℕ := (a + (b - 1)) / b

/-- Count with the sizes one by one: the number of volumes, or what is left behind all of them. -/
def countVolumes : (sizes : List NonZeroU64) → (index remaining : ℕ) → ℕ ⊕ ℕ
  | [], _, remaining => .inr remaining
  | size :: sizes, index, remaining =>
    if remaining ≤ size.val.toNat then .inl (index + 1)
    else countVolumes sizes (index + 1) (remaining - size.val.toNat)

def requiredVolumeCount (totalSize : ℕ) (sizes : List NonZeroU64) : Except R7zError ℕ :=
  match sizes.getLast? with
  | none => .error (.invalidOptions "volume options require at least one size")
  | some lastSize =>
    if totalSize = 0 then .ok 1
    else
      match countVolumes sizes 0 totalSize with
      | .inl count => .ok count
      | .inr remaining => checkedAddNat sizes.length (divCeil remaining lastSize.val.toNat)

structure VolumeCountBudget where
  created : ℕ
  limit : Option UInt64
deriving DecidableEq, Repr

def VolumeCountBudget.charge (budget : VolumeCountBudget) (count : ℕ) : Except R7zError VolumeCountBudget :=
  if budget.created + count < 2 ^ 64 ∧ budget.limit.all fun limit => budget.created + count ≤ limit.toNat then
    .ok { budget with created := budget.created + count }
  else
    .error (.resourceLimitExceeded "archive volume count" (budget.limit.getD (UInt64.ofNat (2 ^ 64 - 1))))

/-! Writing them -/

section
variable {σ : Type} (archive : Reader σ R7zError UInt8)

/-- The size of a volume; the last size is that of all further ones. -/
def volumeSize (sizes : List UInt64) (index : ℕ) : ℕ := (sizes.getD (min index (sizes.length - 1)) 0).toNat

def COPY_BUFFER : ℕ := 8 * 1024

def copyTo : (turns left : ℕ) → Machine σ R7zError (List UInt8)
  | 0, _ => pure []
  | turns + 1, left =>
    if left = 0 then pure []
    else do
      let items ← archive (min left COPY_BUFFER)
      if items = [] then pure []
      else do
        let more ← copyTo turns (left - items.length)
        pure (items ++ more)

/-- One volume each turn: the byte that was read ahead, and what is copied behind it. -/
def writeVolumes (sizes : List NonZeroU64) : (turns volumeIndex : ℕ) → (next : List UInt8) →
    Machine σ R7zError (List (List UInt8))
  | 0, _, _ => pure []
  | turns + 1, volumeIndex, next =>
    if next = [] then pure []
    else do
      let remaining := volumeSize (sizes.map Subtype.val) volumeIndex - 1
      let copied ← copyTo archive (remaining + 1) remaining
      if copied.length < remaining then pure [next ++ copied]
      else do
        let following ← archive 1
        let more ← writeVolumes sizes turns (volumeIndex + 1) following
        pure ((next ++ copied) :: more)

/-- The contents of the volumes, in order; `totalSize` is where the archive ends, and it is read from its
beginning. -/
def writeVolumeFiles (totalSize : ℕ) (sizes : List NonZeroU64) (budget : VolumeCountBudget) :
    Machine σ R7zError (List (List UInt8)) := do
  let volumeCount ← ofExcept (requiredVolumeCount totalSize sizes)
  let _ ← ofExcept (budget.charge volumeCount)
  let next ← archive 1
  if next = [] then pure [[]]
  else writeVolumes archive sizes (totalSize + 1) 0 next

def writeVolumesFrom (inputLen : ℕ) (sizes : List UInt64) : (turns idx offset : ℕ) →
    Machine σ R7zError (List (List UInt8))
  | 0, _, _ => pure []
  | turns + 1, idx, offset =>
    if offset < inputLen ∨ (idx = 0 ∧ inputLen = 0) then do
      let size := volumeSize sizes idx
      let stop := min (min (offset + size) (2 ^ 64 - 1)) inputLen
      let written ← copyTo archive (stop - offset + 1) (stop - offset)
      if written = [] then pure [written]
      else do
        let more ← writeVolumesFrom inputLen sizes turns (idx + 1) stop
        pure (written :: more)
    else pure []

def writeVolumesFromFile (inputLen : ℕ) (sizes : List UInt64) : Machine σ R7zError (List (List UInt8)) :=
  writeVolumesFrom archive inputLen sizes (inputLen + 1) 0 0

end

/-! Reading them -/

structure VolumeReader where
  file : List UInt8
  start : ℕ
  stop : ℕ
deriving DecidableEq, Repr

inductive ArchiveSourceKind where
  | File (file : List UInt8)
  | Volumes (readers : List VolumeReader) (len : ℕ)

namespace ArchiveSourceKind

def len : ArchiveSourceKind → ℕ
  | .File file => file.length
  | .Volumes _ len => len

def openVolumes (maxOpenVolumes : NonZeroU64) : (files : List (List UInt8)) → (opened len : ℕ) →
    Except R7zError (List VolumeReader × ℕ)
  | [], _, len => .ok ([], len)
  | file :: files, opened, len =>
    if maxOpenVolumes.val.toNat < opened + 1 then
      .error (.resourceLimitExceeded "open archive volumes" maxOpenVolumes.val)
    else do
      let stop ← checkedAddNat len file.length
      let (readers, total) ← openVolumes maxOpenVolumes files (opened + 1) stop
      .ok (⟨file, len, stop⟩ :: readers, total)

/-- Open the volumes there are, by the path of the first. A single one is closed again and opened as a
file, which the limit has room for. -/
def fromFile (maxOpenVolumes : NonZeroU64) (files : List (List UInt8)) : Except R7zError ArchiveSourceKind := do
  let (readers, total) ← openVolumes maxOpenVolumes files 0 0
  if 1 < readers.length then .ok (.Volumes readers total)
  else
    match files with
    | [] => .error .io
    | file :: _ => .ok (.File file)

def positionedRead (file : List UInt8) (offset n : ℕ) : Except R7zError (List UInt8) :=
  if file.length < offset + n then .error .io else .ok ((file.drop offset).take n)

def readVolumes (readers : List VolumeReader) : (turns logicalOffset remaining : ℕ) →
    Except R7zError (List UInt8)
  | 0, _, _ => .ok []
  | turns + 1, logicalOffset, remaining =>
    if remaining = 0 then .ok []
    else
      match readers.find? fun volume => volume.start ≤ logicalOffset ∧ logicalOffset < volume.stop with
      | none => .error .parse
      | some volume => do
        let n := min (volume.stop - logicalOffset) remaining
        let bytes ← positionedRead volume.file (logicalOffset - volume.start) n
        let next ← checkedAddNat logicalOffset n
        let more ← readVolumes readers turns next (remaining - n)
        .ok (bytes ++ more)

def readExactAt (source : ArchiveSourceKind) (offset n : ℕ) : Except R7zError (List UInt8) :=
  if n = 0 then .ok []
  else do
    let stop ← checkedAddNat offset n
    if source.len < stop then .error .parse
    else
      match source with
      | .File file => positionedRead file offset n
      | .Volumes readers _ => readVolumes readers n offset n

end ArchiveSourceKind

/-! What is written -/

section
variable {σ : Type} {archive : Reader σ R7zError UInt8} {R : σ → List UInt8 → Prop}

theorem copyTo_spec (h : Provides archive R) : ∀ (turns n : ℕ) (left : List UInt8), n < turns →
    Meets (fun s => R s left) (copyTo archive turns n) (fun items s => items = left.take n ∧ R s (left.drop n))
      fun _ _ => False
  | 0, _, _, hturns => absurd hturns (Nat.not_lt_zero _)
  | turns + 1, n, left, hturns => by
    rw [copyTo]
    split
    · rename_i hn
      subst hn
      exact Meets.pure fun s hs => ⟨List.take_zero.symm, hs⟩
    · rename_i hn
      have hpos : 0 < min n COPY_BUFFER := lt_min (Nat.pos_of_ne_zero hn) (by decide)
      refine (h (min n COPY_BUFFER) left).bind fun items => ?_
      split
      · rename_i hnil
        refine Meets.pure fun s hs => ?_
        obtain ⟨-, hend, rest, hrest, hs⟩ := hs
        have hleft := hend hnil hpos
        rw [hleft, hnil, List.nil_append] at hrest
        rw [hleft, List.take_nil, List.drop_nil]
        exact ⟨rfl, hrest ▸ hs⟩
      · rename_i hsome
        rintro s ⟨hfits, -, rest, rfl, hs⟩
        have hlong := List.length_pos_iff.mpr hsome
        have hle : items.length ≤ n := hfits.trans (min_le_left _ _)
        have hmore := (copyTo_spec h turns (n - items.length) rest (by omega)).bind
          (f := fun more => pure (items ++ more)) (R := fun all s =>
            all = (items ++ rest).take n ∧ R s ((items ++ rest).drop n)) fun more => Meets.pure fun s hs => ?_
        · exact hmore s hs
        · rw [hs.1, List.take_append, List.take_of_length_le hle, List.drop_append,
            List.drop_eq_nil_of_le hle]
          exact ⟨rfl, hs.2⟩

theorem volumeSize_pos {sizes : List UInt64} (hne : sizes ≠ []) (hpos : ∀ size ∈ sizes, size ≠ 0) (i : ℕ) :
    0 < volumeSize sizes i := by
  have hlt : min i (sizes.length - 1) < sizes.length := by
    have hlength := List.length_pos_iff.mpr hne
    omega
  rw [volumeSize, List.getD_eq_getElem _ _ hlt]
  have hsize := hpos _ (List.getElem_mem hlt)
  rw [Nat.pos_iff_ne_zero]
  exact fun hzero => hsize (UInt64.toNat_inj.mp hzero)

theorem val_ne_zero (sizes : List NonZeroU64) : ∀ size ∈ sizes.map Subtype.val, size ≠ 0 := by
  intro size hsize
  obtain ⟨nonZero, -, rfl⟩ := List.mem_map.mp hsize
  exact nonZero.property

structure Ahead (next left : List UInt8) : Prop where
  length_le : next.length ≤ 1
  left_nil : next = [] → left = []

theorem writeVolumes_spec (h : Provides archive R) {sizes : List NonZeroU64} (hne : sizes ≠ []) :
    ∀ (turns i : ℕ) (next left : List UInt8), Ahead next left → left.length + next.length < turns →
    Meets (fun s => R s left) (writeVolumes archive sizes turns i next)
      (fun parts _ => (next = [] → parts = []) ∧
        (next ≠ [] → Cut (volumeSize (sizes.map Subtype.val)) i (next ++ left) parts)) fun _ _ => False
  | 0, _, _, _, _, hturns => absurd hturns (Nat.not_lt_zero _)
  | turns + 1, i, next, left, hahead, hturns => by
    rw [writeVolumes]
    split
    · rename_i hnil
      exact Meets.pure fun s hs => ⟨fun _ => rfl, fun hsome => absurd hnil hsome⟩
    · rename_i hsome
      dsimp only
      obtain ⟨width, hwidth⟩ : ∃ width, width = volumeSize (sizes.map Subtype.val) i := ⟨_, rfl⟩
      have hpos : 0 < width := hwidth ▸ volumeSize_pos (fun hnil => hne (List.map_eq_nil_iff.mp hnil))
        (val_ne_zero sizes) i
      have hone : next.length = 1 := by
        have hlong := List.length_pos_iff.mpr hsome
        have hle := hahead.length_le
        omega
      rw [← hwidth]
      refine (copyTo_spec h (width - 1 + 1) (width - 1) left (Nat.lt_succ_self _)).bind fun copied => ?_
      rintro s ⟨hcopied, hs⟩
      have hlength : copied.length = min (width - 1) left.length := by rw [hcopied, List.length_take]
      apply Outcome.ite
      · intro hshort
        -- the archive has ended inside this volume
        have hall : copied = left := by rw [hcopied, List.take_of_length_le (by omega)]
        refine ⟨fun hnil => absurd hnil hsome, fun _ => ?_⟩
        rw [hall]
        apply Cut.last
        · exact fun hnil => hsome (List.append_eq_nil_iff.mp hnil).1
        · rw [List.length_append, hone, ← hwidth]
          rw [hall] at hshort
          omega
      · intro hfull
        have hpiece : (next ++ copied).length = width := by
          rw [List.length_append, hone]
          omega
        have hwhole : next ++ left = (next ++ copied) ++ left.drop (width - 1) := by
          rw [List.append_assoc, hcopied, List.take_append_drop]
        refine ((h 1 (left.drop (width - 1))).bind (fun following => ?_)) s hs
        rintro s' ⟨hfollowing, hend, rest, hrest, hs'⟩
        have hahead' : Ahead following rest := by
          refine ⟨hfollowing, fun hnil => ?_⟩
          rw [hend hnil Nat.one_pos, eq_comm, List.append_eq_nil_iff] at hrest
          exact hrest.2
        have hturns' : rest.length + following.length < turns := by
          have hdrop := congrArg List.length hrest
          rw [List.length_drop, List.length_append] at hdrop
          omega
        refine ((writeVolumes_spec h hne turns (i + 1) following rest hahead' hturns').bind
          (fun more => ?_)) s' hs'
        refine Meets.pure fun s'' hmore => ⟨fun hnil => absurd hnil hsome, fun _ => ?_⟩
        rw [hwhole, hrest]
        have hne' : next ++ copied ≠ [] := fun hnil => hsome (List.append_eq_nil_iff.mp hnil).1
        by_cases hnil : following = []
        · rw [hmore.1 hnil, hnil, hahead'.left_nil hnil, List.append_nil, List.append_nil]
          exact .last hne' (by rw [hpiece, hwidth])
        · exact .more hne' (hpiece.trans hwidth) (hmore.2 hnil)

/-- The library reads one byte ahead and then writes the volumes. -/
theorem writing_spec (h : Provides archive R) {content : List UInt8} {sizes : List NonZeroU64} (hne : sizes ≠ []) :
    Meets (fun s => R s content) (archive 1 >>= fun next =>
        if next = [] then pure [[]] else writeVolumes archive sizes (content.length + 1) 0 next)
      (fun parts _ => (content = [] → parts = [[]]) ∧
        (content ≠ [] → Cut (volumeSize (sizes.map Subtype.val)) 0 content parts)) fun _ _ => False := by
  refine (h 1 content).bind fun next => ?_
  rintro s ⟨hone, hend, rest, rfl, hs⟩
  have hahead : Ahead next rest := by
    refine ⟨hone, fun hnil => ?_⟩
    exact (List.append_eq_nil_iff.mp (hend hnil Nat.one_pos)).2
  apply Outcome.ite
  · intro hnil
    have hnone : next ++ rest = [] := by rw [hnil, hahead.left_nil hnil, List.append_nil]
    exact ⟨fun _ => rfl, fun hsome => absurd hnone hsome⟩
  · intro hsome
    have hturns : rest.length + next.length < (next ++ rest).length + 1 := by
      rw [List.length_append]
      omega
    refine ((writeVolumes_spec h hne _ 0 next rest hahead hturns).post fun parts s' hparts => ?_) s hs
    exact ⟨fun hnil => absurd (List.append_eq_nil_iff.mp hnil).1 hsome, fun _ => hparts.2 hsome⟩

theorem writeVolumesFrom_spec (h : Provides archive R) {inputLen : ℕ} (hlen : inputLen < 2 ^ 64)
    {sizes : List UInt64} (hne : sizes ≠ []) (hpos : ∀ size ∈ sizes, size ≠ 0) :
    ∀ (turns i offset : ℕ) (left : List UInt8), offset + left.length = inputLen → left.length < turns →
    Meets (fun s => R s left) (writeVolumesFrom archive inputLen sizes turns i offset)
      (fun parts _ => (left = [] → parts = if i = 0 ∧ inputLen = 0 then [[]] else []) ∧
        (left ≠ [] → Cut (volumeSize sizes) i left parts)) fun _ _ => False
  | 0, _, _, _, _, hturns => absurd hturns (Nat.not_lt_zero _)
  | turns + 1, i, offset, left, hoffset, hturns => by
    rw [writeVolumesFrom]
    split
    · rename_i hgo
      dsimp only
      obtain ⟨stop, hstop⟩ : ∃ stop, stop = min (min (offset + volumeSize sizes i) (2 ^ 64 - 1)) inputLen := ⟨_, rfl⟩
      -- a volume has a byte at least, so the turns suffice
      have hwidth := volumeSize_pos hne hpos i
      rw [← hstop]
      refine (copyTo_spec h (stop - offset + 1) (stop - offset) left (Nat.lt_succ_self _)).bind fun written => ?_
      rintro s ⟨hwritten, hs⟩
      have hlength : written.length = min (stop - offset) left.length := by rw [hwritten, List.length_take]
      apply Outcome.ite
      · intro hnil
        have hleft : left = [] := by
          rw [hnil, List.length_nil] at hlength
          exact List.length_eq_zero_iff.mp (by omega)
        rw [hleft, List.length_nil, Nat.add_zero] at hoffset
        refine ⟨fun _ => ?_, fun hsome => absurd hleft hsome⟩
        rw [if_pos (hgo.resolve_left (by omega)), hnil]
      · intro hsome
        have hlong := List.length_pos_iff.mpr hsome
        have hnext : stop + (left.drop (stop - offset)).length = inputLen := by
          rw [List.length_drop]
          omega
        refine ((writeVolumesFrom_spec h hlen hne hpos turns (i + 1) stop (left.drop (stop - offset)) hnext
          (by omega)).bind fun more => ?_) s hs
        refine Meets.pure fun s' hmore => ⟨fun hnil => ?_, fun _ => ?_⟩
        · rw [hnil, List.length_nil] at hlength
          omega
        · have hwhole : left = written ++ left.drop (stop - offset) := by
            rw [hwritten, List.take_append_drop]
          by_cases hrest : left.drop (stop - offset) = []
          · rw [hmore.1 hrest, if_neg (fun hfirst => Nat.succ_ne_zero i hfirst.1), hwhole, hrest, List.append_nil]
            exact .last hsome (by omega)
          · have hmid := List.length_pos_iff.mpr hrest
            rw [hwhole]
            exact .more hsome (by omega) (hmore.2 hrest)
    · rename_i hdone
      refine Meets.pure fun s hs => ⟨fun hnil => ?_, fun hsome => ?_⟩
      · rw [if_neg fun hfirst => hdone (.inr hfirst)]
      · have hlong := List.length_pos_iff.mpr hsome
        exact absurd (.inl (by omega)) hdone

end

/-! Counting them -/

theorem countVolumes_spec {width : ℕ → ℕ} : ∀ (sizes : List NonZeroU64) (i : ℕ) {content : List UInt8}
    {pieces : List (List UInt8)},
    (∀ (j : ℕ) (size : NonZeroU64), sizes[j]? = some size → width (i + j) = size.val.toNat) →
    Cut width i content pieces →
    countVolumes sizes i content.length = .inl (i + pieces.length) ∨
    ∃ (rest : List UInt8) (more : List (List UInt8)), Cut width (i + sizes.length) rest more ∧
      pieces.length = sizes.length + more.length ∧ countVolumes sizes i content.length = .inr rest.length
  | [], i, content, pieces, _, h => .inr ⟨content, pieces, h, (Nat.zero_add _).symm, rfl⟩
  | size :: sizes, i, content, pieces, hwidth, h => by
    have hfirst : width i = size.val.toNat := hwidth 0 size rfl
    rw [countVolumes, ← hfirst]
    rcases h.cons_or_last with ⟨hle, hpieces⟩ | ⟨hlt, rest, hpieces, hrest⟩
    · left
      rw [if_pos hle, hpieces, List.length_singleton]
    · have hlength : content.length - width i = (content.drop (width i)).length := List.length_drop.symm
      have htail : ∀ (j : ℕ) (size : NonZeroU64), sizes[j]? = some size → width (i + 1 + j) = size.val.toNat := by
        intro j size hj
        rw [Nat.add_assoc, Nat.add_comm 1 j]
        exact hwidth (j + 1) size hj
      rw [if_neg (not_le.mpr hlt), hlength, hpieces, List.length_cons]
      rcases countVolumes_spec sizes (i + 1) htail hrest with hcount | ⟨left, more, hleft, hmore, hcount⟩
      · left
        rw [hcount, Nat.add_assoc, Nat.add_comm 1]
      · right
        refine ⟨left, more, ?_, ?_, hcount⟩
        · rwa [List.length_cons, Nat.add_comm sizes.length, ← Nat.add_assoc]
        · rw [List.length_cons, hmore]
          omega

theorem requiredVolumeCount_spec {sizes : List NonZeroU64} (hne : sizes ≠ []) {content : List UInt8}
    (hlen : content.length < 2 ^ 64) {pieces : List (List UInt8)}
    (h : Cut (volumeSize (sizes.map Subtype.val)) 0 content pieces) :
    requiredVolumeCount content.length sizes = .ok pieces.length := by
  have hcontent : content.length ≠ 0 := fun hzero => h.items_ne_nil (List.length_eq_zero_iff.mp hzero)
  have hwidth : ∀ (j : ℕ) (size : NonZeroU64), sizes[j]? = some size →
      volumeSize (sizes.map Subtype.val) (0 + j) = size.val.toNat := by
    intro j size hj
    obtain ⟨hlt, hsize⟩ := List.getElem?_eq_some_iff.mp hj
    rw [volumeSize, Nat.zero_add, List.length_map, min_eq_left (by omega), List.getD_eq_getElem?_getD,
      List.getElem?_map, hj]
    rfl
  have htail : ∀ j, 0 + sizes.length ≤ j →
      volumeSize (sizes.map Subtype.val) j = (sizes.getLast hne).val.toNat := by
    intro j hj
    have hpos := List.length_pos_iff.mpr hne
    rw [volumeSize, List.length_map, min_eq_right (by omega), List.getD_eq_getElem?_getD, List.getElem?_map,
      List.getElem?_eq_getElem (by omega), List.getLast_eq_getElem]
    rfl
  have hlast : 0 < (sizes.getLast hne).val.toNat := Nat.pos_of_ne_zero fun hzero =>
    (sizes.getLast hne).property (UInt64.toNat_inj.mp hzero)
  have hroom := h.pieces_le
  rw [requiredVolumeCount, List.getLast?_eq_getLast_of_ne_nil hne]
  dsimp only
  rw [if_neg hcontent]
  rcases countVolumes_spec sizes 0 hwidth h with hcount | ⟨rest, more, hmore, hlength, hcount⟩
  · rw [hcount, Nat.zero_add]
  · have hceil : divCeil rest.length (sizes.getLast hne).val.toNat = more.length :=
      (hmore.count hlast htail).symm
    rw [hcount]
    dsimp only
    rw [hceil, checkedAddNat_ok (by omega), hlength]

/-! Reading them back -/

namespace ArchiveSourceKind

def placed : (start : ℕ) → List (List UInt8) → List VolumeReader
  | _, [] => []
  | start, file :: files => ⟨file, start, start + file.length⟩ :: placed (start + file.length) files

theorem placed_length (start : ℕ) (files : List (List UInt8)) : (placed start files).length = files.length := by
  induction files generalizing start with
  | nil => rfl
  | cons file files ih => rw [placed, List.length_cons, ih, List.length_cons]

theorem openVolumes_eq {maxOpenVolumes : NonZeroU64} : ∀ {files : List (List UInt8)} {opened start : ℕ}
    {readers : List VolumeReader} {total : ℕ},
    openVolumes maxOpenVolumes files opened start = .ok (readers, total) →
    readers = placed start files ∧ total = start + files.flatten.length
  | [], _, _, _, _, h => by
    cases h
    exact ⟨rfl, rfl⟩
  | file :: files, opened, start, readers, total, h => by
    rw [openVolumes] at h
    split at h
    · cases h
    · obtain ⟨stop, hstop, h⟩ := Wire.except_bind_eq_ok.mp h
      obtain ⟨⟨readers', total'⟩, hrest, h⟩ := Wire.except_bind_eq_ok.mp h
      cases h
      have hsum : stop = start + file.length := by
        unfold checkedAddNat at hstop
        split at hstop
        · exact (Except.ok.inj hstop).symm
        · cases hstop
      subst hsum
      obtain ⟨rfl, rfl⟩ := openVolumes_eq hrest
      refine ⟨rfl, ?_⟩
      rw [List.flatten_cons, List.length_append, Nat.add_assoc]

/-- An offset in the volumes is in one of them, and what follows it there is the front of what follows it
in the whole. -/
theorem find_placed : ∀ (files : List (List UInt8)) (start offset : ℕ), start ≤ offset →
    offset < start + files.flatten.length →
    ∃ (volume : VolumeReader) (behind : List UInt8),
      (placed start files).find? (fun volume => volume.start ≤ offset ∧ offset < volume.stop) = some volume ∧
      volume.start ≤ offset ∧ offset < volume.stop ∧ volume.stop = volume.start + volume.file.length ∧
      files.flatten.drop (offset - start) = volume.file.drop (offset - volume.start) ++ behind
  | [], start, offset, hle, hlt => absurd hlt (not_lt.mpr hle)
  | file :: files, start, offset, hle, hlt => by
    rw [placed, List.find?_cons]
    by_cases hin : offset < start + file.length
    · refine ⟨⟨file, start, start + file.length⟩, files.flatten, ?_, hle, hin, rfl, ?_⟩
      · rw [decide_eq_true ⟨hle, hin⟩]
      · rw [List.flatten_cons, List.drop_append_of_le_length (by omega)]
    · rw [List.flatten_cons, List.length_append] at hlt
      obtain ⟨volume, behind, hfind, hstart, hstop, hfile, hdrop⟩ :=
        find_placed files (start + file.length) offset (not_lt.mp hin) (by omega)
      refine ⟨volume, behind, ?_, hstart, hstop, hfile, ?_⟩
      · rw [decide_eq_false fun h => hin h.2]
        exact hfind
      · rw [← hdrop, List.flatten_cons, List.drop_append, List.drop_eq_nil_of_le (by omega), List.nil_append,
          Nat.sub_sub]

theorem readVolumes_eq {files : List (List UInt8)} (hlen : files.flatten.length < 2 ^ 64) :
    ∀ (turns offset n : ℕ), n ≤ turns → offset + n ≤ files.flatten.length →
    readVolumes (placed 0 files) turns offset n = .ok ((files.flatten.drop offset).take n)
  | 0, offset, n, hturns, _ => by
    rw [Nat.le_zero.mp hturns, List.take_zero]
    rfl
  | turns + 1, offset, n, hturns, hroom => by
    rw [readVolumes]
    split
    · rename_i hn
      rw [hn, List.take_zero]
    · rename_i hn
      obtain ⟨volume, behind, hfind, hstart, hstop, hfile, hdrop⟩ :=
        find_placed files 0 offset (Nat.zero_le _) (by omega)
      rw [Nat.sub_zero] at hdrop
      rw [hfind]
      dsimp only
      obtain ⟨k, hk⟩ : ∃ k, k = min (volume.stop - offset) n := ⟨_, rfl⟩
      have hread : positionedRead volume.file (offset - volume.start) k =
          .ok ((volume.file.drop (offset - volume.start)).take k) := if_neg (by omega)
      have hfront : (volume.file.drop (offset - volume.start)).take k = (files.flatten.drop offset).take k := by
        rw [hdrop, List.take_append_of_le_length (by rw [List.length_drop]; omega)]
      have hsplit : (files.flatten.drop offset).take n =
          (files.flatten.drop offset).take k ++ (files.flatten.drop (offset + k)).take (n - k) := by
        have hsum : n = k + (n - k) := by omega
        rw [← List.drop_drop, ← List.take_add, ← hsum]
      rw [← hk, hread, checkedAddNat_ok (by omega)]
      show (readVolumes (placed 0 files) turns (offset + k) (n - k) >>= _) = _
      rw [readVolumes_eq hlen turns (offset + k) (n - k) (by omega) (by omega), hfront, hsplit]
      rfl

theorem openVolumes_ok {maxOpenVolumes : NonZeroU64} : ∀ {files : List (List UInt8)} {opened start : ℕ},
    opened + files.length ≤ maxOpenVolumes.val.toNat → start + files.flatten.length < 2 ^ 64 →
    ∃ opening, openVolumes maxOpenVolumes files opened start = .ok opening
  | [], opened, start, _, _ => ⟨([], start), rfl⟩
  | file :: files, opened, start, hmax, hlen => by
    rw [List.length_cons] at hmax
    rw [List.flatten_cons, List.length_append] at hlen
    obtain ⟨opening, hrest⟩ := @openVolumes_ok maxOpenVolumes files (opened + 1) (start + file.length)
      (by omega) (by omega)
    refine ⟨(⟨file, start, start + file.length⟩ :: opening.1, opening.2), ?_⟩
    rw [openVolumes, if_neg (by omega), checkedAddNat_ok (by omega)]
    show (openVolumes maxOpenVolumes files (opened + 1) (start + file.length) >>= _) = _
    rw [hrest]
    rfl

theorem fromFile_ok {maxOpenVolumes : NonZeroU64} {files : List (List UInt8)} (hne : files ≠ [])
    (hmax : files.length ≤ maxOpenVolumes.val.toNat) (hlen : files.flatten.length < 2 ^ 64) :
    ∃ source, fromFile maxOpenVolumes files = .ok source := by
  obtain ⟨⟨readers, total⟩, hopen⟩ := @openVolumes_ok maxOpenVolumes files 0 0 (by omega) (by omega)
  unfold fromFile
  simp only [hopen, bind, Except.bind]
  split
  · exact ⟨_, rfl⟩
  · cases files with
    | nil => exact absurd rfl hne
    | cons file _ => exact ⟨.File file, rfl⟩

theorem fromFile_spec {maxOpenVolumes : NonZeroU64} {files : List (List UInt8)} {source : ArchiveSourceKind}
    (hopen : fromFile maxOpenVolumes files = .ok source) (hlen : files.flatten.length < 2 ^ 64) :
    source.len = files.flatten.length ∧ ∀ offset n, offset + n ≤ files.flatten.length →
      source.readExactAt offset n = .ok ((files.flatten.drop offset).take n) := by
  obtain ⟨⟨readers, total⟩, hreaders, hopen⟩ := Wire.except_bind_eq_ok.mp hopen
  obtain ⟨hplaced, htotal⟩ := openVolumes_eq hreaders
  rw [Nat.zero_add] at htotal
  dsimp only at hopen
  split at hopen
  · cases hopen
    refine ⟨htotal, fun offset n hroom => ?_⟩
    rw [readExactAt]
    split
    · rename_i hn
      rw [hn, List.take_zero]
    · have hstop : ¬(Volumes readers total).len < offset + n := by
        show ¬total < offset + n
        omega
      rw [checkedAddNat_ok (by omega), ← readVolumes_eq hlen n offset n le_rfl hroom, ← hplaced]
      exact if_neg hstop
  · rename_i hone
    rw [hplaced, placed_length] at hone
    cases files with
    | nil => cases hopen
    | cons file rest =>
      rw [List.length_cons] at hone
      have hrest : rest = [] := List.length_eq_zero_iff.mp (by omega)
      subst hrest
      cases hopen
      rw [List.flatten_singleton] at hlen ⊢
      refine ⟨rfl, fun offset n hroom => ?_⟩
      rw [readExactAt]
      split
      · rename_i hn
        rw [hn, List.take_zero]
      · have hstop : ¬(File file).len < offset + n := not_lt.mpr hroom
        rw [checkedAddNat_ok (by omega)]
        exact (if_neg hstop).trans (if_neg (not_lt.mpr hroom))

end ArchiveSourceKind

/-! Volumes -/

theorem parts_of_content {σ τ : Type} {archive : Reader σ R7zError UInt8} {R : σ → List UInt8 → Prop}
    {input : Reader τ R7zError UInt8} {S : τ → List UInt8 → Prop} (harchive : Provides archive R)
    (hinput : Provides input S) {content : List UInt8} (hlen : content.length < 2 ^ 64) {s : σ} (hs : R s content)
    {t : τ} (ht : S t content) {sizes : List NonZeroU64} (hne : sizes ≠ []) :
    ∃ parts : List (List UInt8), (content = [] → parts = [[]]) ∧
      (content ≠ [] → Cut (volumeSize (sizes.map Subtype.val)) 0 content parts) ∧
      (∀ budget : VolumeCountBudget, (writeVolumeFiles archive content.length sizes budget s).1 =
        budget.charge parts.length >>= fun _ => .ok parts) ∧
      (writeVolumesFromFile input content.length (sizes.map Subtype.val) t).1 = .ok parts ∧
      requiredVolumeCount content.length sizes = .ok parts.length := by
  have hcommand := writeVolumesFrom_spec hinput hlen (fun hnil => hne (List.map_eq_nil_iff.mp hnil))
    (val_ne_zero sizes) (content.length + 1) 0 0 content (Nat.zero_add _) (Nat.lt_succ_self _)
  rcases hrun : writeVolumesFromFile input content.length (sizes.map Subtype.val) t with ⟨e | parts, t'⟩
  · exact (hcommand.error ht hrun).elim
  obtain ⟨hempty, hcut⟩ := hcommand.ok ht hrun
  have hcount : requiredVolumeCount content.length sizes = .ok parts.length := by
    by_cases hnil : content = []
    · have hone : parts.length = 1 := by
        rw [hempty hnil, hnil]
        rfl
      rw [hone, hnil, requiredVolumeCount, List.getLast?_eq_getLast_of_ne_nil hne]
      exact if_pos rfl
    · exact requiredVolumeCount_spec hne hlen (hcut hnil)
  refine ⟨parts, ?_, hcut, fun budget => ?_, rfl, hcount⟩
  · intro hnil
    rw [hempty hnil, hnil]
    rfl
  · have hwrite := @writing_spec _ _ _ harchive content _ hne
    rw [writeVolumeFiles, hcount]
    show ((ofExcept (budget.charge parts.length) >>= _) s).1 = _
    rcases budget.charge parts.length with e | charged
    · rfl
    · show ((archive 1 >>= _) s).1 = .ok parts
      rcases hrun : (archive 1 >>= fun next =>
        if next = [] then (pure [[]] : Machine σ R7zError (List (List UInt8)))
        else writeVolumes archive sizes (content.length + 1) 0 next) s with ⟨e | parts', s'⟩
      · exact (hwrite.error hs hrun).elim
      · obtain ⟨hnone, hsome⟩ := hwrite.ok hs hrun
        by_cases hnil : content = []
        · rw [hnone hnil, hempty hnil, hnil]
          rfl
        · rw [(hsome hnil).unique (hcut hnil)]

/-- The library and the command line write the same volumes: the archive cut at their sizes, as many as
were counted beforehand. Opened together they are read as the archive. -/
theorem volumes_spec {σ τ : Type} {archive : Reader σ R7zError UInt8} {R : σ → List UInt8 → Prop}
    {input : Reader τ R7zError UInt8} {S : τ → List UInt8 → Prop} (harchive : Provides archive R)
    (hinput : Provides input S) {content : List UInt8} (hlen : content.length < 2 ^ 64) {s : σ} (hs : R s content)
    {t : τ} (ht : S t content) {sizes : List NonZeroU64} (hne : sizes ≠ []) :
    ∃ parts : List (List UInt8),
      (∀ budget : VolumeCountBudget, (writeVolumeFiles archive content.length sizes budget s).1 =
        budget.charge parts.length >>= fun _ => .ok parts) ∧
      (writeVolumesFromFile input content.length (sizes.map Subtype.val) t).1 = .ok parts ∧
      parts.flatten = content ∧
      (∀ i part, parts[i]? = some part → part.length ≤ volumeSize (sizes.map Subtype.val) i ∧
        (i + 1 < parts.length → part.length = volumeSize (sizes.map Subtype.val) i)) ∧
      (content ≠ [] → ∀ part ∈ parts, part ≠ []) ∧
      requiredVolumeCount content.length sizes = .ok parts.length ∧
      ∀ maxOpenVolumes : NonZeroU64, parts.length ≤ maxOpenVolumes.val.toNat →
        ∃ source, ArchiveSourceKind.fromFile maxOpenVolumes parts = .ok source ∧
          ∀ offset n, offset + n ≤ content.length →
            source.readExactAt offset n = .ok ((content.drop offset).take n) := by
  obtain ⟨parts, hcontent, hcut, hlibrary, hcommand, hcount⟩ :=
    parts_of_content harchive hinput hlen hs ht hne
  have hflatten : parts.flatten = content := by
    by_cases hnil : content = []
    · rw [hnil, hcontent hnil]
      rfl
    · exact (hcut hnil).flatten
  refine ⟨parts, hlibrary, hcommand, hflatten, fun i part hi => ?_, fun hsome => (hcut hsome).ne_nil, hcount,
    fun maxOpenVolumes hmax => ?_⟩
  · by_cases hnil : content = []
    · rw [hcontent hnil] at hi ⊢
      have hempty : part = [] := List.mem_singleton.mp (List.mem_of_getElem? hi)
      rw [hempty, List.length_singleton]
      exact ⟨Nat.zero_le _, fun hmore => absurd hmore (by omega)⟩
    · have hwidth := (hcut hnil).length_le hi
      have hexact := (hcut hnil).length_eq hi
      rw [Nat.zero_add] at hwidth hexact
      exact ⟨hwidth, hexact⟩
  · have hsome : parts ≠ [] := by
      by_cases hnil : content = []
      · rw [hcontent hnil]
        exact List.cons_ne_nil _ _
      · exact List.length_pos_iff.mp (hcut hnil).pieces_pos
    rw [← hflatten] at hlen ⊢
    obtain ⟨source, hopen⟩ := ArchiveSourceKind.fromFile_ok hsome hmax hlen
    exact ⟨source, hopen, (ArchiveSourceKind.fromFile_spec hopen hlen).2⟩

/-- Five bytes, of which the archive first hands over two at once; volumes of two bytes, then of one. -/
theorem volumes_spec_five_bytes : ∃ parts : List (List UInt8),
    (writeVolumeFiles Scripted.read 5 [⟨2, by decide⟩, ⟨1, by decide⟩] ⟨0, some 4⟩
      ⟨[1, 2, 3, 4, 5], [.ok 1, .ok 1]⟩).1 =
      (VolumeCountBudget.charge ⟨0, some 4⟩ parts.length >>= fun _ => .ok parts) ∧
    (writeVolumesFromFile Scripted.read 5 [2, 1] ⟨[1, 2, 3, 4, 5], []⟩).1 = .ok parts ∧
    parts.flatten = [1, 2, 3, 4, 5] ∧
    (∀ i part, parts[i]? = some part → part.length ≤ volumeSize [2, 1] i ∧
      (i + 1 < parts.length → part.length = volumeSize [2, 1] i)) ∧
    (∀ part ∈ parts, part ≠ []) ∧
    requiredVolumeCount 5 [⟨2, by decide⟩, ⟨1, by decide⟩] = .ok parts.length ∧
    ∃ source, ArchiveSourceKind.fromFile ⟨4, by decide⟩ parts = .ok source ∧
      ∀ offset n, offset + n ≤ 5 →
        source.readExactAt offset n = .ok (([1, 2, 3, 4, 5].drop offset).take n) := by
  have hsteady : ∀ script : List (Except R7zError ℕ), (∀ e, .error e ∉ script) →
      Scripted.Steady ⟨[1, 2, 3, 4, 5], script⟩ [(1 : UInt8), 2, 3, 4, 5] := fun script h => ⟨rfl, h⟩
  obtain ⟨parts, hlibrary, hcommand, hflatten, hsizes, hsome, hcount, hopen⟩ := @volumes_spec _ _ _ _ _ _
    Scripted.provides Scripted.provides [1, 2, 3, 4, 5] (by decide) _ (hsteady [.ok 1, .ok 1] (by simp)) _
    (hsteady [] (by simp)) [⟨2, by decide⟩, ⟨1, by decide⟩] (List.cons_ne_nil _ _)
  have hfour : parts.length = 4 := by
    have hrequired : requiredVolumeCount 5 [⟨2, by decide⟩, ⟨1, by decide⟩] = .ok 4 := by decide +kernel
    exact (Except.ok.inj (hrequired.symm.trans hcount)).symm
  exact ⟨parts, hlibrary ⟨0, some 4⟩, hcommand, hflatten, hsizes, hsome (List.cons_ne_nil _ _), hcount,
    hopen ⟨4, by decide⟩ hfour.le⟩

end R7z
