import R7z.FolderLayout

/-! What handing out the folders takes from each table of the header: where one folder's part lies,
and what is known of the tables once a folder has come out of them. -/

namespace R7z

open Wire Wire.Parser

/-! One folder's part of a table -/

theorem ok_bind {ε α β : Type} (a : α) (f : α → Except ε β) : ((.ok a : Except ε α) >>= f) = f a := rfl

theorem getRange_middle {α : Type} (before middle after : List α) :
    getRange (before ++ (middle ++ after)) before.length (before.length + middle.length) =
      some middle := by
  have hle : before.length ≤ before.length + middle.length ∧
      before.length + middle.length ≤ (before ++ (middle ++ after)).length := by
    simp only [List.length_append]
    omega
  rw [getRange, if_pos hle, List.drop_left, Nat.add_sub_cancel_left, List.take_left]

theorem getRange_flatMap {α β : Type} (g : α → List β) (before after : List α) (a : α) :
    getRange ((before ++ a :: after).flatMap g) (before.flatMap g).length
      ((before.flatMap g).length + (g a).length) = some (g a) := by
  rw [List.flatMap_append, List.flatMap_cons]
  exact getRange_middle _ _ _

theorem getRange_replicate {α : Type} (n i k : ℕ) (a : α) (h : i + k ≤ n) :
    getRange (List.replicate n a) i (i + k) = some (List.replicate k a) := by
  have hle : i ≤ i + k ∧ i + k ≤ (List.replicate n a).length := by
    rw [List.length_replicate]
    omega
  rw [getRange, if_pos hle, List.drop_replicate, Nat.add_sub_cancel_left, List.take_replicate]
  congr
  omega

theorem checkedUsizeAdd_ok {a b : ℕ} (h : a + b < usizeLimit) : checkedUsizeAdd a b = .ok (a + b) :=
  if_pos h

theorem sumSizes_ok {sizes : List UInt64} : ∀ {start : ℕ},
    start + (sizes.map UInt64.toNat).sum < 2 ^ 64 →
      sumSizes sizes start = .ok (start + (sizes.map UInt64.toNat).sum) := by
  induction sizes with
  | nil => exact fun _ => rfl
  | cons size sizes ih =>
    intro start h
    rw [List.map_cons, List.sum_cons, ← Nat.add_assoc] at h ⊢
    have hsize : start + size.toNat < 2 ^ 64 := by omega
    rw [← ih h]
    change ((if start + size.toNat < 2 ^ 64 then Except.ok (start + size.toNat) else .error .parse) >>=
      fun total => sumSizes sizes total) = _
    rw [if_pos hsize, ok_bind]

/-! The substreams of a folder -/

def substreamsFrom (digests : List (Option UInt32)) : ℕ → ℕ → List UInt64 → List Substream
  | _, _, [] => []
  | position, offset, size :: sizes =>
    { start := offset, stop := offset + size.toNat, digest := (digests[position]?).join } ::
      substreamsFrom digests (position + 1) (offset + size.toNat) sizes

def layoutOf (sizes : List UInt64) (digests : List (Option UInt32)) : FolderStreamLayout :=
  { explicitSizes := sizes.dropLast, finalSize := sizes.getLast?, digests }

theorem layoutOf_len (sizes : List UInt64) (digests : List (Option UInt32)) :
    (layoutOf sizes digests).len = sizes.length := by
  rcases List.eq_nil_or_concat sizes with rfl | ⟨init, last, rfl⟩
  · rfl
  · simp [FolderStreamLayout.len, layoutOf]

theorem layoutOf_size {sizes : List UInt64} {digests : List (Option UInt32)} {position : ℕ}
    {size : UInt64} (h : sizes[position]? = some size) :
    ((layoutOf sizes digests).explicitSizes[position]?).or (layoutOf sizes digests).finalSize =
      some size := by
  rcases List.eq_nil_or_concat sizes with rfl | ⟨init, last, rfl⟩
  · simp at h
  · simp only [layoutOf, List.concat_eq_append, List.dropLast_concat, List.getLast?_concat] at h ⊢
    rcases Nat.lt_or_ge position init.length with hlt | hge
    · rw [List.getElem?_append_left hlt] at h
      rw [h]
      rfl
    · rw [List.getElem?_append_right hge] at h
      rw [List.getElem?_eq_none hge, Option.none_or]
      have hlast := List.mem_of_getElem? h
      rw [List.mem_singleton] at hlast
      rw [hlast]

theorem collect_layoutOf {digests : List (Option UInt32)} (after : List UInt64) :
    ∀ (before : List UInt64) (offset : ℕ),
      Substreams.collect after.length ⟨layoutOf (before ++ after) digests, before.length, offset⟩ =
        substreamsFrom digests before.length offset after := by
  induction after with
  | nil => exact fun _ _ => rfl
  | cons size after ih =>
    intro before offset
    have hsize : (before ++ size :: after)[before.length]? = some size := by simp
    have hnext : (⟨layoutOf (before ++ size :: after) digests, before.length, offset⟩ : Substreams).next =
        some (⟨offset, offset + size.toNat, (digests[before.length]?).join⟩,
          ⟨layoutOf (before ++ size :: after) digests, before.length + 1, offset + size.toNat⟩) := by
      have hpos : ¬before.length = (layoutOf (before ++ size :: after) digests).len := by
        rw [layoutOf_len, List.length_append, List.length_cons]
        omega
      unfold Substreams.next
      rw [if_neg hpos, layoutOf_size hsize]
      rfl
    have hrest := ih (before ++ [size]) (offset + size.toNat)
    rw [List.append_assoc, List.singleton_append, List.length_append, List.length_singleton] at hrest
    rw [List.length_cons, Substreams.collect, hnext]
    exact congrArg _ hrest

theorem layoutOf_toList (sizes : List UInt64) (digests : List (Option UInt32)) :
    (layoutOf sizes digests).streams.toList = substreamsFrom digests 0 0 sizes := by
  have hcollect := @collect_layoutOf digests sizes [] 0
  unfold Substreams.toList Substreams.remaining FolderStreamLayout.streams
  rw [layoutOf_len, Nat.sub_zero]
  exact hcollect

theorem sum_dropLast_add {sizes : List UInt64} {last : UInt64} (h : sizes.getLast? = some last) :
    (sizes.dropLast.map UInt64.toNat).sum + last.toNat = (sizes.map UInt64.toNat).sum := by
  rcases List.eq_nil_or_concat sizes with rfl | ⟨init, last', rfl⟩
  · simp at h
  · simp only [List.concat_eq_append, List.getLast?_concat, Option.some.injEq] at h
    subst h
    simp

theorem layout_new {sizes : List UInt64} {digests : List (Option UInt32)} {decodedLen : UInt64}
    (hsum : (sizes.map UInt64.toNat).sum = decodedLen.toNat)
    (hdigests : digests = [] ∨ digests.length = sizes.length) :
    FolderStreamLayout.new decodedLen sizes.length sizes.dropLast digests =
      .ok (layoutOf sizes digests) := by
  have hguard : ¬(sizes.dropLast.length ≠ sizes.length - 1 ∨
      (¬digests.isEmpty ∧ digests.length ≠ sizes.length)) := by
    rw [List.length_dropLast]
    rcases hdigests with rfl | hlen
    · simp
    · simp [hlen]
  have hle : (sizes.dropLast.map UInt64.toNat).sum ≤ decodedLen.toNat := by
    rw [← hsum]
    exact (List.Sublist.map _ (List.dropLast_sublist _)).sum_le_sum fun _ _ => Nat.zero_le _
  have htotal : sumSizes sizes.dropLast 0 = .ok (sizes.dropLast.map UInt64.toNat).sum := by
    have hsmall := @sumSizes_ok sizes.dropLast 0
      (by rw [Nat.zero_add]; exact hle.trans_lt decodedLen.toNat_lt)
    rwa [Nat.zero_add] at hsmall
  unfold FolderStreamLayout.new
  rw [if_neg hguard, htotal, ok_bind, if_neg (Nat.not_lt.mpr hle)]
  cases hlast : sizes.getLast? with
  | none =>
    rw [List.getLast?_eq_none_iff.mp hlast]
    rfl
  | some last =>
    have hne : sizes.length ≠ 0 := fun hzero => by
      rw [List.length_eq_zero_iff.mp hzero] at hlast
      cases hlast
    have hrest : decodedLen.toNat - (sizes.dropLast.map UInt64.toNat).sum = last.toNat := by
      have := sum_dropLast_add hlast
      omega
    dsimp only
    rw [if_pos hne, hrest, UInt64.ofNat_toNat, layoutOf, hlast]
    rfl

theorem substreamsFrom_size (digests : List (Option UInt32)) (sizes : List UInt64) :
    ∀ position offset, (substreamsFrom digests position offset sizes).map
      (fun stream => stream.stop - stream.start) = sizes.map UInt64.toNat := by
  induction sizes with
  | nil => exact fun _ _ => rfl
  | cons size sizes ih =>
    intro position offset
    rw [substreamsFrom, List.map_cons, List.map_cons, ih]
    simp

theorem substreamsFrom_digest (digests : List (Option UInt32)) (sizes : List UInt64) :
    ∀ position offset, digests.length = position + sizes.length →
      (substreamsFrom digests position offset sizes).map Substream.digest = digests.drop position := by
  induction sizes with
  | nil =>
    intro position offset hlen
    have hle : digests.length ≤ position := Nat.le_of_eq hlen
    rw [List.drop_eq_nil_iff.mpr hle]
    rfl
  | cons size sizes ih =>
    intro position offset hlen
    rw [List.length_cons] at hlen
    have hpos : position < digests.length := by omega
    rw [substreamsFrom, List.map_cons, ih _ _ (by omega), List.drop_eq_getElem_cons hpos,
      List.getElem?_eq_getElem hpos]
    rfl

theorem substreamsFrom_no_digest (sizes : List UInt64) : ∀ position offset,
    (substreamsFrom [] position offset sizes).map Substream.digest = List.replicate sizes.length none := by
  induction sizes with
  | nil => exact fun _ _ => rfl
  | cons size sizes ih =>
    intro position offset
    rw [substreamsFrom, List.map_cons, ih]
    rfl

/-! The walk over the folders -/

theorem FolderPlans.nextFolder_of {plans : FolderPlans} {folder : Folder} {graph : FolderGraph}
    {packEnd outputEnd streamCount streamSizeEnd streamDigestEnd packOffset : ℕ}
    {packSizes coderSizes explicitSizes : List UInt64} {unpackSize : UInt64}
    {digests : List (Option UInt32)} {layout : FolderStreamLayout}
    (hfolder : plans.unpackInfo.parseFolderWithGraph plans.folderIndex = .ok (folder, graph))
    (hpackEnd : checkedUsizeAdd plans.packIndex graph.packedStreamCount = .ok packEnd)
    (hpackSizes : orParseError (getRange plans.packInfo.packSize plans.packIndex packEnd) = .ok packSizes)
    (houtputEnd : checkedUsizeAdd plans.outputBase folder.totalOutStreams = .ok outputEnd)
    (hcoderSizes : orParseError (getRange plans.unpackInfo.unpackSizes plans.outputBase outputEnd) =
      .ok coderSizes)
    (hunpackSize : orParseError coderSizes[graph.finalOutput]? = .ok unpackSize)
    (hstreamCount : plans.folderStreamCount = .ok streamCount)
    (hsizeEnd : checkedUsizeAdd plans.streamSizeBase (streamCount - 1) = .ok streamSizeEnd)
    (hexplicit : plans.explicitStreamSizes streamSizeEnd = .ok explicitSizes)
    (hdigestEnd : checkedUsizeAdd plans.streamDigestBase streamCount = .ok streamDigestEnd)
    (hdigests : plans.streamDigests streamDigestEnd = .ok digests)
    (hlayout : FolderStreamLayout.new unpackSize streamCount explicitSizes digests = .ok layout)
    (hpackOffset : sumSizes packSizes plans.packOffset = .ok packOffset) :
    plans.nextFolder = .ok (
      { folder, graph, coderSizes, unpackSize, layout
        streams := { sizes := packSizes
                     digests := (getRange plans.packInfo.digests plans.packIndex
                       (min packEnd plans.packInfo.digests.length)).getD []
                     start := plans.packOffset }
        crc := (plans.unpackInfo.digests[plans.folderIndex]?).join },
      { plans with folderIndex := plans.folderIndex + 1, packIndex := packEnd, packOffset,
                   outputBase := outputEnd, streamSizeBase := streamSizeEnd,
                   streamDigestBase := streamDigestEnd }) := by
  unfold FolderPlans.nextFolder
  rw [hfolder, ok_bind]
  dsimp only
  rw [hpackEnd, ok_bind, hpackSizes, ok_bind, houtputEnd, ok_bind, hcoderSizes, ok_bind, hunpackSize,
    ok_bind, hstreamCount, ok_bind, hsizeEnd, ok_bind, hexplicit, ok_bind, hdigestEnd, ok_bind, hdigests,
    ok_bind, hlayout, ok_bind, hpackOffset, ok_bind]
  rfl

theorem orParseError_ok {α : Type} {o : Option α} {a : α} : orParseError o = .ok a ↔ o = some a := by
  cases o with
  | none =>
    constructor <;> intro h <;> cases h
  | some b =>
    constructor
    · intro h
      cases h
      rfl
    · intro h
      cases h
      rfl

theorem checkedUsizeAdd_eq_ok {a b c : ℕ} :
    checkedUsizeAdd a b = .ok c ↔ a + b < usizeLimit ∧ c = a + b := by
  unfold checkedUsizeAdd
  by_cases hlt : a + b < usizeLimit
  · rw [if_pos hlt]
    constructor
    · intro h
      cases h
      exact ⟨hlt, rfl⟩
    · rintro ⟨-, rfl⟩
      rfl
  · rw [if_neg hlt]
    constructor
    · intro h
      cases h
    · exact fun h => absurd h.1 hlt

/-- What one folder takes: its part of each table, and where the walk stands behind it. -/
structure FolderPlans.Takes (plans : FolderPlans) (folder : FolderLayout) (after : FolderPlans) :
    Prop where
  parsed : plans.unpackInfo.parseFolderWithGraph plans.folderIndex = .ok (folder.folder, folder.graph)
  packSizes : getRange plans.packInfo.packSize plans.packIndex after.packIndex = some folder.streams.sizes
  coderSizes : getRange plans.unpackInfo.unpackSizes plans.outputBase after.outputBase =
    some folder.coderSizes
  unpackSize : folder.coderSizes[folder.graph.finalOutput]? = some folder.unpackSize
  streamCount : ∃ count, plans.folderStreamCount = .ok count ∧
    FolderStreamLayout.new folder.unpackSize count folder.layout.explicitSizes folder.layout.digests =
      .ok folder.layout ∧
    after.streamSizeBase = plans.streamSizeBase + (count - 1) ∧
    after.streamDigestBase = plans.streamDigestBase + count
  explicitSizes : plans.explicitStreamSizes after.streamSizeBase = .ok folder.layout.explicitSizes
  digests : plans.streamDigests after.streamDigestBase = .ok folder.layout.digests
  packOffset : sumSizes folder.streams.sizes plans.packOffset = .ok after.packOffset
  streams : folder.streams.start = plans.packOffset ∧ folder.streams.digests =
    (getRange plans.packInfo.digests plans.packIndex
      (min after.packIndex plans.packInfo.digests.length)).getD []
  crc : folder.crc = (plans.unpackInfo.digests[plans.folderIndex]?).join
  packIndex : after.packIndex = plans.packIndex + folder.graph.packedStreamCount
  outputBase : after.outputBase = plans.outputBase + folder.folder.totalOutStreams
  folderIndex : after.folderIndex = plans.folderIndex + 1
  limits : after.packIndex < usizeLimit ∧ after.outputBase < usizeLimit ∧
    after.streamSizeBase < usizeLimit ∧ after.streamDigestBase < usizeLimit
  tables : after.packInfo = plans.packInfo ∧ after.unpackInfo = plans.unpackInfo ∧
    after.substreamInfo = plans.substreamInfo ∧ after.finished = plans.finished

theorem FolderStreamLayout.new_sizes {decodedLen : UInt64} {count : ℕ} {explicitSizes : List UInt64}
    {digests : List (Option UInt32)} {layout : FolderStreamLayout}
    (h : FolderStreamLayout.new decodedLen count explicitSizes digests = .ok layout) :
    layout.explicitSizes = explicitSizes ∧ layout.digests = digests := by
  unfold FolderStreamLayout.new at h
  split at h
  · cases h
  · obtain ⟨total, -, h⟩ := except_bind_eq_ok.mp h
    dsimp only at h
    split at h
    · cases h
    · cases h
      exact ⟨rfl, rfl⟩

theorem FolderPlans.takes_of_nextFolder {plans after : FolderPlans} {folder : FolderLayout}
    (h : plans.nextFolder = .ok (folder, after)) : plans.Takes folder after := by
  unfold FolderPlans.nextFolder at h
  obtain ⟨⟨parsed, graph⟩, hparsed, h⟩ := except_bind_eq_ok.mp h
  dsimp only at h
  obtain ⟨packEnd, hpackEnd, h⟩ := except_bind_eq_ok.mp h
  obtain ⟨packSizes, hpackSizes, h⟩ := except_bind_eq_ok.mp h
  obtain ⟨outputEnd, houtputEnd, h⟩ := except_bind_eq_ok.mp h
  obtain ⟨coderSizes, hcoderSizes, h⟩ := except_bind_eq_ok.mp h
  obtain ⟨unpackSize, hunpackSize, h⟩ := except_bind_eq_ok.mp h
  obtain ⟨count, hcount, h⟩ := except_bind_eq_ok.mp h
  obtain ⟨sizeEnd, hsizeEnd, h⟩ := except_bind_eq_ok.mp h
  obtain ⟨explicitSizes, hexplicit, h⟩ := except_bind_eq_ok.mp h
  obtain ⟨digestEnd, hdigestEnd, h⟩ := except_bind_eq_ok.mp h
  obtain ⟨digests, hdigests, h⟩ := except_bind_eq_ok.mp h
  obtain ⟨layout, hlayout, h⟩ := except_bind_eq_ok.mp h
  obtain ⟨packOffset, hpackOffset, h⟩ := except_bind_eq_ok.mp h
  obtain ⟨hpackLt, rfl⟩ := checkedUsizeAdd_eq_ok.mp hpackEnd
  obtain ⟨houtputLt, rfl⟩ := checkedUsizeAdd_eq_ok.mp houtputEnd
  obtain ⟨hsizeLt, rfl⟩ := checkedUsizeAdd_eq_ok.mp hsizeEnd
  obtain ⟨hdigestLt, rfl⟩ := checkedUsizeAdd_eq_ok.mp hdigestEnd
  obtain ⟨hsizes, hlayoutDigests⟩ := FolderStreamLayout.new_sizes hlayout
  cases h
  subst hsizes
  subst hlayoutDigests
  exact {
    parsed := hparsed
    packSizes := orParseError_ok.mp hpackSizes
    coderSizes := orParseError_ok.mp hcoderSizes
    unpackSize := orParseError_ok.mp hunpackSize
    streamCount := ⟨count, hcount, hlayout, rfl, rfl⟩
    explicitSizes := hexplicit
    digests := hdigests
    packOffset := hpackOffset
    streams := ⟨rfl, rfl⟩
    crc := rfl
    packIndex := rfl
    outputBase := rfl
    folderIndex := rfl
    limits := ⟨hpackLt, houtputLt, hsizeLt, hdigestLt⟩
    tables := ⟨rfl, rfl, rfl, rfl⟩ }

theorem FolderPlans.Takes.folderIndex_lt {plans after : FolderPlans} {folder : FolderLayout}
    (h : plans.Takes folder after) : plans.folderIndex < plans.unpackInfo.numFoldersUsize := by
  have hparsed := h.parsed
  unfold UnpackInfo.parseFolderWithGraph at hparsed
  obtain ⟨bytes, hbytes, -⟩ := except_bind_eq_ok.mp hparsed
  unfold UnpackInfo.folderBytes at hbytes
  split at hbytes
  · rename_i start stop _ hstop
    obtain ⟨hlt, -⟩ := List.getElem?_eq_some_iff.mp hstop
    unfold UnpackInfo.numFoldersUsize
    omega
  · cases hbytes

/-- Folders that the layouts can still hand out, and one more turn for the check at the end. -/
def FolderLayouts.turns (layouts : FolderLayouts) : Nat :=
  if layouts.plans.finished then 0
  else layouts.plans.unpackInfo.numFoldersUsize - layouts.plans.folderIndex + 1

inductive FolderLayouts.Turn (layouts : FolderLayouts) : Prop where
  | ends (after : FolderLayouts) (heq : layouts.next = (none, after)) (hturns : after.turns = 0)
    (hidle : after.next = (none, after))
    (hend : layouts.plans.finished = true ∨
      layouts.plans.folderIndex = layouts.plans.unpackInfo.numFoldersUsize ∧
        layouts.plans.validateComplete = .ok ())
  | fails (e : R7zError) (after : FolderLayouts) (heq : layouts.next = (some (.error e), after))
    (hturns : after.turns = 0) (hpos : 0 < layouts.turns)
  | hands (folder : FolderLayout) (after : FolderLayouts) (heq : layouts.next = (some (.ok folder), after))
    (htakes : layouts.plans.Takes folder after.plans) (hturns : layouts.turns = after.turns + 1)

theorem FolderLayouts.turn (layouts : FolderLayouts) : layouts.Turn := by
  obtain ⟨plans, streamCount⟩ := layouts
  by_cases hfinished : plans.finished = true
  · have hidle : (⟨plans, streamCount⟩ : FolderLayouts).next = (none, ⟨plans, streamCount⟩) := by
      unfold FolderLayouts.next FolderPlans.next
      rw [if_pos hfinished]
    exact .ends ⟨plans, streamCount⟩ hidle (if_pos hfinished) hidle (Or.inl hfinished)
  have hpos : 0 < (⟨plans, streamCount⟩ : FolderLayouts).turns := by
    unfold FolderLayouts.turns
    rw [if_neg hfinished]
    exact Nat.succ_pos _
  by_cases hend : plans.folderIndex = plans.unpackInfo.numFoldersUsize
  · cases hcomplete : plans.validateComplete with
    | ok u =>
      refine .ends ⟨{ plans with finished := true }, streamCount⟩ ?_ (if_pos rfl) rfl
        (Or.inr ⟨hend, hcomplete⟩)
      unfold FolderLayouts.next FolderPlans.next
      rw [if_neg hfinished, if_pos hend, hcomplete]
    | error e =>
      refine .fails e ⟨{ plans with finished := true }, streamCount⟩ ?_ (if_pos rfl) hpos
      unfold FolderLayouts.next FolderPlans.next
      rw [if_neg hfinished, if_pos hend, hcomplete]
  cases hfolder : plans.nextFolder with
  | error e =>
    refine .fails e ⟨{ plans with finished := true }, streamCount⟩ ?_ (if_pos rfl) hpos
    unfold FolderLayouts.next FolderPlans.next
    rw [if_neg hfinished, if_neg hend, hfolder]
  | ok v =>
    obtain ⟨folder, after⟩ := v
    have htakes := FolderPlans.takes_of_nextFolder hfolder
    refine .hands folder ⟨after, streamCount⟩ ?_ htakes ?_
    · unfold FolderLayouts.next FolderPlans.next
      rw [if_neg hfinished, if_neg hend, hfolder]
    · have hlt := htakes.folderIndex_lt
      obtain ⟨-, hunpack, -, hafter⟩ := htakes.tables
      unfold FolderLayouts.turns
      dsimp only
      rw [hafter, if_neg hfinished, if_neg hfinished, hunpack, htakes.folderIndex]
      omega

/-! Layouts that pass their checks -/

theorem sumSizes_eq_ok {sizes : List UInt64} : ∀ {start total : ℕ}, sumSizes sizes start = .ok total →
    total = start + (sizes.map UInt64.toNat).sum ∧ (start < 2 ^ 64 → total < 2 ^ 64) := by
  induction sizes with
  | nil =>
    intro start total h
    cases h
    exact ⟨rfl, fun h => h⟩
  | cons size sizes ih =>
    intro start total h
    obtain ⟨next, hnext, h⟩ := except_bind_eq_ok.mp h
    dsimp only at hnext
    split at hnext
    · rename_i hlt
      cases hnext
      obtain ⟨htotal, hsmall⟩ := ih h
      rw [List.map_cons, List.sum_cons]
      exact ⟨by omega, fun _ => hsmall hlt⟩
    · cases hnext

theorem FolderStreamLayout.new_ok {decodedLen : UInt64} {count : ℕ} {explicitSizes : List UInt64}
    {digests : List (Option UInt32)} {layout : FolderStreamLayout}
    (h : FolderStreamLayout.new decodedLen count explicitSizes digests = .ok layout) :
    ∃ sizes : List UInt64, layout = layoutOf sizes digests ∧ sizes.length = count ∧
      (digests = [] ∨ digests.length = count) ∧
      (count ≠ 0 → (sizes.map UInt64.toNat).sum = decodedLen.toNat) := by
  unfold FolderStreamLayout.new at h
  split at h
  · cases h
  rename_i hguard
  obtain ⟨total, htotal, h⟩ := except_bind_eq_ok.mp h
  dsimp only at h
  split at h
  · cases h
  rename_i hle
  obtain ⟨rfl, -⟩ := sumSizes_eq_ok htotal
  have hcount : explicitSizes.length = count - 1 := by
    by_contra hne
    exact hguard (Or.inl hne)
  have hdigests : digests = [] ∨ digests.length = count := by
    by_contra hne
    rw [not_or] at hne
    exact hguard (Or.inr ⟨by simpa using hne.1, hne.2⟩)
  cases h
  by_cases hzero : count = 0
  · refine ⟨[], ?_, hzero.symm, hdigests, fun hne => absurd hzero hne⟩
    have hnil : explicitSizes = [] := List.length_eq_zero_iff.mp (by omega)
    rw [hnil, if_neg (not_not.mpr hzero)]
    rfl
  · refine ⟨explicitSizes ++ [UInt64.ofNat (decodedLen.toNat - (0 + (explicitSizes.map UInt64.toNat).sum))],
      ?_, ?_, hdigests, fun _ => ?_⟩
    · rw [if_pos hzero, layoutOf, List.dropLast_concat, List.getLast?_concat]
    · rw [List.length_append, List.length_singleton]
      omega
    · have hlt := decodedLen.toNat_lt
      rw [List.map_append, List.sum_append, List.map_singleton, List.sum_singleton, UInt64.toNat_ofNat',
        Nat.mod_eq_of_lt (by omega)]
      omega

/-! A whole walk -/

inductive FolderPlans.Walk : FolderPlans → List FolderLayout → FolderPlans → Prop where
  | nil (plans : FolderPlans) : Walk plans [] plans
  | cons {plans next last : FolderPlans} {folder : FolderLayout} {folders : List FolderLayout}
    (head : plans.Takes folder next) (tail : Walk next folders last) : Walk plans (folder :: folders) last

namespace FolderPlans.Walk

variable {plans last : FolderPlans} {folders : List FolderLayout}

theorem tables (h : plans.Walk folders last) : last.packInfo = plans.packInfo ∧
    last.unpackInfo = plans.unpackInfo ∧ last.substreamInfo = plans.substreamInfo ∧
    last.finished = plans.finished := by
  induction h with
  | nil plans => exact ⟨rfl, rfl, rfl, rfl⟩
  | cons head tail ih =>
    obtain ⟨hpack, hunpack, hsub, hfinished⟩ := head.tables
    obtain ⟨ihpack, ihunpack, ihsub, ihfinished⟩ := ih
    exact ⟨ihpack.trans hpack, ihunpack.trans hunpack, ihsub.trans hsub, ihfinished.trans hfinished⟩

theorem folderIndex (h : plans.Walk folders last) :
    last.folderIndex = plans.folderIndex + folders.length := by
  induction h with
  | nil plans => rfl
  | cons head tail ih =>
    rw [ih, head.folderIndex, List.length_cons]
    omega

/-- A table whose parts the folders take one after the other is handed out up to the cursor. -/
theorem table {α : Type} {entries : FolderPlans → List α} {cursor : FolderPlans → ℕ}
    {part : FolderLayout → List α} {P : FolderPlans → Prop}
    (hstep : ∀ {plans folder next}, P plans → FolderPlans.Takes plans folder next →
      P next ∧ entries next = entries plans ∧
        (entries plans).take (cursor next) = (entries plans).take (cursor plans) ++ part folder)
    (h : plans.Walk folders last) (hP : P plans) :
    (entries plans).take (cursor last) = (entries plans).take (cursor plans) ++ folders.flatMap part := by
  induction h with
  | nil plans => rw [List.flatMap_nil, List.append_nil]
  | cons head tail ih =>
    obtain ⟨hnext, hsame, htake⟩ := hstep hP head
    have hrest := ih hnext
    rw [hsame] at hrest
    rw [hrest, htake, List.flatMap_cons, List.append_assoc]

end FolderPlans.Walk

theorem getRange_eq_some {α : Type} {table part : List α} {start stop : ℕ} :
    getRange table start stop = some part ↔
      start ≤ stop ∧ stop ≤ table.length ∧ part = (table.drop start).take (stop - start) := by
  unfold getRange
  by_cases hle : start ≤ stop ∧ stop ≤ table.length
  · rw [if_pos hle]
    constructor
    · intro h
      cases h
      exact ⟨hle.1, hle.2, rfl⟩
    · rintro ⟨-, -, rfl⟩
      rfl
  · rw [if_neg hle]
    constructor
    · intro h
      cases h
    · exact fun h => absurd ⟨h.1, h.2.1⟩ hle

theorem take_of_getRange {α : Type} {table part : List α} {start stop : ℕ}
    (h : getRange table start stop = some part) : table.take stop = table.take start ++ part := by
  obtain ⟨hle, -, rfl⟩ := getRange_eq_some.mp h
  have hsum : stop = start + (stop - start) := by omega
  rw [hsum, Nat.add_sub_cancel_left, List.take_add]

theorem FolderPlans.Takes.layout {plans after : FolderPlans} {folder : FolderLayout}
    (h : plans.Takes folder after) : ∃ sizes : List UInt64,
      folder.layout = layoutOf sizes folder.layout.digests ∧ sizes.length = folder.layout.len ∧
      (folder.layout.digests = [] ∨ folder.layout.digests.length = folder.layout.len) ∧
      (folder.layout.len ≠ 0 → (sizes.map UInt64.toNat).sum = folder.unpackSize.toNat) ∧
      plans.folderStreamCount = .ok folder.layout.len ∧
      after.streamSizeBase = plans.streamSizeBase + (folder.layout.len - 1) ∧
      after.streamDigestBase = plans.streamDigestBase + folder.layout.len := by
  obtain ⟨count, hcount, hnew, hsizeBase, hdigestBase⟩ := h.streamCount
  obtain ⟨sizes, hlayout, hlen, hdigests, hsum⟩ := FolderStreamLayout.new_ok hnew
  have hcountLen : folder.layout.len = count := by
    rw [hlayout, layoutOf_len, hlen]
  rw [hcountLen]
  exact ⟨sizes, hlayout, hlen, hdigests, hsum, hcount, hsizeBase, hdigestBase⟩

theorem FolderLayouts.collect_succ {k : ℕ} {layouts : FolderLayouts} {folders : List FolderLayout}
    (h : FolderLayouts.collect (k + 1) layouts = .ok folders) :
    (∃ after, layouts.next = (none, after) ∧ folders = []) ∨
      ∃ folder after rest, layouts.next = (some (.ok folder), after) ∧ folders = folder :: rest ∧
        FolderLayouts.collect k after = .ok rest := by
  rw [FolderLayouts.collect] at h
  rcases hnext : layouts.next with ⟨_ | e | folder, after⟩ <;> rw [hnext] at h
  · cases h
    exact Or.inl ⟨after, rfl, rfl⟩
  · cases h
  · obtain ⟨rest, hrest, h⟩ := except_bind_eq_ok.mp h
    cases h
    exact Or.inr ⟨folder, after, rest, rfl, rfl, hrest⟩

theorem FolderLayouts.collect_walk : ∀ {k : ℕ} {layouts : FolderLayouts} {folders : List FolderLayout},
    layouts.turns = k → layouts.plans.finished = false → FolderLayouts.collect k layouts = .ok folders →
      ∃ last, layouts.plans.Walk folders last ∧
        last.folderIndex = last.unpackInfo.numFoldersUsize ∧ last.validateComplete = .ok ()
  | 0, layouts, folders, hk, hfinished, h => by
    unfold FolderLayouts.turns at hk
    rw [hfinished, if_neg Bool.false_ne_true] at hk
    cases hk
  | k + 1, layouts, folders, hk, hfinished, h => by
    rcases FolderLayouts.collect_succ h with ⟨after, hnext, rfl⟩ | ⟨folder, after, rest, hnext, rfl, hrest⟩
    · cases layouts.turn with
      | ends _ _ _ _ hend =>
        rcases hend with hdone | hend
        · rw [hfinished] at hdone
          cases hdone
        · exact ⟨layouts.plans, .nil _, hend.1, hend.2⟩
      | fails e after' heq _ _ =>
        rw [hnext] at heq
        cases heq
      | hands folder after' heq _ _ =>
        rw [hnext] at heq
        cases heq
    · cases layouts.turn with
      | ends _ heq _ _ _ =>
        rw [hnext] at heq
        cases heq
      | fails e after' heq _ _ =>
        rw [hnext] at heq
        cases heq
      | hands folder' after' heq htakes hturns =>
        rw [hnext] at heq
        cases heq
        obtain ⟨-, -, -, hafter⟩ := htakes.tables
        have hk' : after.turns = k := by omega
        obtain ⟨last, hwalk, hlast⟩ := FolderLayouts.collect_walk hk' (hafter.trans hfinished) hrest
        exact ⟨last, .cons htakes hwalk, hlast⟩

theorem FolderLayouts.forStreams_eq_ok {streams : StreamInfo} {layouts : FolderLayouts}
    (h : FolderLayouts.forStreams streams = .ok layouts) :
    ∃ pack unpack, streams.packInfo = some pack ∧ streams.unpackInfo = some unpack ∧
      layouts.plans = FolderPlans.new pack unpack streams.substreamInfo ∧
      pack.numPackStreams.toNat = pack.packSize.length ∧
      unpack.numFolders.toNat = unpack.numFoldersUsize ∧
      substreamCount unpack.numFoldersUsize streams.substreamInfo = .ok layouts.streamCount := by
  unfold FolderLayouts.forStreams at h
  obtain ⟨⟨pack, unpack⟩, hpacked, h⟩ := except_bind_eq_ok.mp h
  unfold StreamInfo.packedFolders at hpacked
  split at hpacked
  · rename_i hpack hunpack
    cases hpacked
    dsimp only at h
    split at h
    · cases h
    · rename_i hguard
      obtain ⟨count, hcount, h⟩ := except_bind_eq_ok.mp h
      cases h
      simp only [not_or, not_not] at hguard
      exact ⟨pack, unpack, hpack, hunpack, rfl, hguard.1, hguard.2.2.1, hcount⟩
  · cases hpacked

theorem checkedUsizeAdd_foldlM {counts : List UInt64} : ∀ {start total : ℕ},
    counts.foldlM (fun total count => checkedUsizeAdd total count.toNat) start = .ok total →
      total = start + (counts.map UInt64.toNat).sum := by
  induction counts with
  | nil =>
    intro start total h
    cases h
    rfl
  | cons count counts ih =>
    intro start total h
    obtain ⟨next, hnext, h⟩ := except_bind_eq_ok.mp h
    obtain ⟨-, rfl⟩ := checkedUsizeAdd_eq_ok.mp hnext
    rw [ih h, List.map_cons, List.sum_cons, Nat.add_assoc]

theorem FolderPlans.Walk.counts {plans last : FolderPlans} {folders : List FolderLayout}
    {info : SubstreamInfo} (h : plans.Walk folders last) (hinfo : plans.substreamInfo = some info) :
    (info.numUnpackStreamsPerFolder.map UInt64.toNat).take last.folderIndex =
      (info.numUnpackStreamsPerFolder.map UInt64.toNat).take plans.folderIndex ++
        folders.map fun folder => folder.layout.len := by
  have hstep : ∀ {plans : FolderPlans} {folder : FolderLayout} {next : FolderPlans},
      plans.substreamInfo = some info → plans.Takes folder next →
        next.substreamInfo = some info ∧
          info.numUnpackStreamsPerFolder.map UInt64.toNat =
            info.numUnpackStreamsPerFolder.map UInt64.toNat ∧
          (info.numUnpackStreamsPerFolder.map UInt64.toNat).take next.folderIndex =
            (info.numUnpackStreamsPerFolder.map UInt64.toNat).take plans.folderIndex ++
              [folder.layout.len] := by
    intro plans folder next hP htakes
    obtain ⟨-, -, -, -, -, hcount, -, -⟩ := htakes.layout
    refine ⟨htakes.tables.2.2.1.trans hP, rfl, ?_⟩
    unfold FolderPlans.folderStreamCount at hcount
    rw [hP] at hcount
    obtain ⟨count, hget, hcount⟩ := except_bind_eq_ok.mp hcount
    rw [htakes.folderIndex, List.take_add_one, List.getElem?_map, orParseError_ok.mp hget,
      ← Except.ok.inj hcount]
    rfl
  have htable := @table plans last folders ℕ (fun _ => info.numUnpackStreamsPerFolder.map UInt64.toNat)
    FolderPlans.folderIndex (fun folder => [folder.layout.len])
    (fun plans => plans.substreamInfo = some info) hstep h hinfo
  rwa [← List.map_eq_flatMap] at htable

theorem FolderPlans.Walk.single {plans last : FolderPlans} {folders : List FolderLayout}
    (h : plans.Walk folders last) (hinfo : plans.substreamInfo = none) :
    (folders.map fun folder => folder.layout.len) = List.replicate folders.length 1 := by
  induction h with
  | nil plans => rfl
  | cons head tail ih =>
    obtain ⟨-, -, -, -, -, hcount, -, -⟩ := head.layout
    unfold FolderPlans.folderStreamCount at hcount
    rw [hinfo] at hcount
    rw [List.map_cons, ih (head.tables.2.2.1.trans hinfo), List.length_cons, List.replicate_succ,
      ← Except.ok.inj hcount]

theorem FolderLayouts.toList_walk {streams : StreamInfo} {layouts : FolderLayouts}
    {folders : List FolderLayout} (hfor : FolderLayouts.forStreams streams = .ok layouts)
    (h : layouts.toList = .ok folders) :
    ∃ last, layouts.plans.Walk folders last ∧
      last.folderIndex = last.unpackInfo.numFoldersUsize ∧ last.validateComplete = .ok () := by
  obtain ⟨pack, unpack, -, -, hplans, -, -, -⟩ := FolderLayouts.forStreams_eq_ok hfor
  have hfinished : layouts.plans.finished = false := by rw [hplans]; rfl
  have hindex : layouts.plans.folderIndex = 0 := by rw [hplans]; rfl
  refine FolderLayouts.collect_walk ?_ hfinished h
  unfold FolderLayouts.turns
  rw [hfinished, if_neg Bool.false_ne_true, hindex, Nat.sub_zero]

theorem FolderLayouts.streamCount_eq {streams : StreamInfo} {layouts : FolderLayouts}
    {folders : List FolderLayout} (hfor : FolderLayouts.forStreams streams = .ok layouts)
    (h : layouts.toList = .ok folders) :
    (folders.map fun folder => folder.layout.len).sum = layouts.streamCount := by
  obtain ⟨last, hwalk, hlast, -⟩ := FolderLayouts.toList_walk hfor h
  obtain ⟨pack, unpack, -, -, hplans, -, -, hcount⟩ := FolderLayouts.forStreams_eq_ok hfor
  have hunpack : last.unpackInfo = unpack := by rw [hwalk.tables.2.1, hplans]; rfl
  have hlength : folders.length = unpack.numFoldersUsize := by
    have hindex := hwalk.folderIndex
    rw [hplans] at hindex
    rw [← hunpack, ← hlast, hindex]
    exact (Nat.zero_add _).symm
  have hsubstreams : layouts.plans.substreamInfo = streams.substreamInfo := by rw [hplans]; rfl
  cases hinfo : streams.substreamInfo with
  | none =>
    rw [hinfo] at hcount hsubstreams
    rw [hwalk.single hsubstreams, List.sum_replicate, hlength, smul_eq_mul, Nat.mul_one]
    exact Except.ok.inj hcount
  | some info =>
    rw [hinfo] at hcount hsubstreams
    unfold substreamCount at hcount
    dsimp only at hcount
    split at hcount
    · cases hcount
    · rename_i hlen
      have htable := hwalk.counts hsubstreams
      have hzero : layouts.plans.folderIndex = 0 := by rw [hplans]; rfl
      have hall : last.folderIndex = (info.numUnpackStreamsPerFolder.map UInt64.toNat).length := by
        rw [List.length_map, not_not.mp hlen, hlast, hunpack]
      rw [hzero, hall, List.take_length, List.take_zero, List.nil_append] at htable
      rw [checkedUsizeAdd_foldlM hcount, htable, Nat.zero_add]

end R7z
