import R7z.ChainPlan
import R7z.StreamsRoundTrip
import R7z.Write.Frames

/-! The coder lists that the writer puts down for a folder are read back as the coders that they list, one
feeding the next. -/

namespace R7z

open Wire Wire.Parser

theorem aesFlags (power : UInt8) (hasSalt hasIv : Bool) :
    ((power &&& 0x3F) ||| (if hasSalt then 0x80 else 0) ||| (if hasIv then 0x40 else 0)) &&& 0x3F =
        power &&& 0x3F ∧
      ((((power &&& 0x3F) ||| (if hasSalt then 0x80 else 0) ||| (if hasIv then 0x40 else 0)) >>> 7) &&& 1 != 0) =
        hasSalt ∧
      ((((power &&& 0x3F) ||| (if hasSalt then 0x80 else 0) ||| (if hasIv then 0x40 else 0)) >>> 6) &&& 1 != 0) =
        hasIv := by
  have hall : ∀ n : Fin 256, ∀ hasSalt hasIv : Bool,
      ((UInt8.ofFin n &&& 0x3F) ||| (if hasSalt then 0x80 else 0) ||| (if hasIv then 0x40 else 0)) &&& 0x3F =
          UInt8.ofFin n &&& 0x3F ∧
        ((((UInt8.ofFin n &&& 0x3F) ||| (if hasSalt then 0x80 else 0) |||
          (if hasIv then 0x40 else 0)) >>> 7) &&& 1 != 0) = hasSalt ∧
        ((((UInt8.ofFin n &&& 0x3F) ||| (if hasSalt then 0x80 else 0) |||
          (if hasIv then 0x40 else 0)) >>> 6) &&& 1 != 0) = hasIv := by
    decide +kernel
  exact hall power.toFin hasSalt hasIv

theorem aesNibbles {salt iv : ℕ} (hsalt : salt ≤ 16) (hiv : iv ≤ 16) :
    (((UInt8.ofNat (salt - 1) <<< 4) ||| UInt8.ofNat (iv - 1)) >>> 4).toNat = salt - 1 ∧
      (((UInt8.ofNat (salt - 1) <<< 4) ||| UInt8.ofNat (iv - 1)) &&& 0x0F).toNat = iv - 1 := by
  have hall : ∀ s < 17, ∀ i < 17,
      (((UInt8.ofNat (s - 1) <<< 4) ||| UInt8.ofNat (i - 1)) >>> 4).toNat = s - 1 ∧
        (((UInt8.ofNat (s - 1) <<< 4) ||| UInt8.ofNat (i - 1)) &&& 0x0F).toNat = i - 1 := by
    decide +kernel
  exact hall salt (Nat.lt_succ_of_le hsalt) iv (Nat.lt_succ_of_le hiv)

theorem ne_nil_toNat {l : List UInt8} : (!l.isEmpty).toNat + (l.length - 1) = l.length := by
  cases l with
  | nil => rfl
  | cons b l =>
    rw [List.length_cons, Nat.add_sub_cancel, Nat.add_comm]
    rfl

theorem AesProperties.parse_of_sizes {byte0 : UInt8} {tail salt iv : List UInt8}
    (h : sizes byte0 tail = .ok (salt.length, iv.length, salt ++ iv)) : parse (byte0 :: tail) =
      .ok { numCyclesPower := byte0 &&& 0x3F, salt, iv := paddedIv iv, iv_length := paddedIv_length iv } := by
  have hlength : ¬(salt ++ iv).length < salt.length + iv.length := by
    rw [List.length_append]
    exact lt_irrefl _
  show (sizes byte0 tail >>= _) = _
  rw [h]
  show (if _ then _ else _) = _
  rw [if_neg hlength]
  show Except.ok _ = _
  congr 1
  rw [AesProperties.mk.injEq, List.take_left, List.drop_left, List.take_length]
  exact ⟨rfl, rfl, rfl⟩

/-- The properties are read back; of the power, the six bits that there is room for. -/
theorem AesProperties.parse_encode (power : UInt8) {salt iv : List UInt8} (hsalt : salt.length ≤ 16)
    (hiv : iv.length ≤ 16) : AesProperties.parse (Write.encodeAesProperties power salt iv) =
      .ok { numCyclesPower := power &&& 0x3F, salt, iv := paddedIv iv, iv_length := paddedIv_length iv } := by
  obtain ⟨hpower, hflagSalt, hflagIv⟩ := aesFlags power (!salt.isEmpty) (!iv.isEmpty)
  have hbyte : (power &&& 0x3F) ||| (if salt.isEmpty then (0 : UInt8) else 0x80) |||
      (if iv.isEmpty then 0 else 0x40) = (power &&& 0x3F) ||| (if !salt.isEmpty then 0x80 else 0) |||
        (if !iv.isEmpty then 0x40 else 0) := by
    cases salt.isEmpty <;> cases iv.isEmpty <;> rfl
  unfold Write.encodeAesProperties
  rw [hbyte]
  generalize (power &&& 0x3F) ||| (if !salt.isEmpty then 0x80 else 0) |||
    (if !iv.isEmpty then 0x40 else 0) = byte at hpower hflagSalt hflagIv ⊢
  rw [← hpower]
  apply parse_of_sizes
  unfold sizes
  dsimp only
  rw [hflagSalt, hflagIv]
  by_cases hnone : salt.isEmpty ∧ iv.isEmpty
  · rw [if_pos hnone]
    obtain ⟨hsaltEmpty, hivEmpty⟩ := hnone
    rw [List.isEmpty_iff] at hsaltEmpty hivEmpty
    rw [hsaltEmpty, hivEmpty]
    rfl
  · rw [if_neg hnone]
    obtain ⟨hsaltNibble, hivNibble⟩ := aesNibbles hsalt hiv
    have hsome : (!salt.isEmpty || !iv.isEmpty) = true := by
      rw [not_and_or] at hnone
      rcases hnone with h | h
      · rw [Bool.eq_false_iff.mpr h]
        rfl
      · rw [Bool.eq_false_iff.mpr h, Bool.not_false, Bool.or_true]
    rw [if_pos hsome]
    generalize (UInt8.ofNat (salt.length - 1) <<< 4) ||| UInt8.ofNat (iv.length - 1) = second
      at hsaltNibble hivNibble ⊢
    show Except.ok ((!salt.isEmpty).toNat + (second >>> 4).toNat,
      (!iv.isEmpty).toNat + (second &&& 0x0F).toNat, salt ++ iv) = _
    rw [hsaltNibble, hivNibble, ne_nil_toNat, ne_nil_toNat]

/-! Coders -/

section
variable {W : Window}

theorem Reads.take_append {ε α : Type} {eof : ε} {f : Slice → Parser ε α} {e e' : List UInt8} {v : α}
    (hf : ∀ a, Reads W (f ⟨a, e⟩) e' v) : Reads W (Parser.take eof e.length >>= f) (e ++ e') v := by
  intro a rest h
  rw [List.append_assoc] at h ⊢
  rw [bind_of_ok (Parser.take_append eof a e (e' ++ rest)), hf a _ _ (W.drop h), List.length_append,
    Nat.add_assoc]

def plainCoder (id : CodecId) (properties : Option (List UInt8)) : CoderInfo :=
  { codecId := id, numInStreams := 1, numOutStreams := 1, properties }

def sizedProperties (properties : Option (List UInt8)) : List UInt8 :=
  match properties with
  | some props => Write.varuint props.length ++ props
  | none => []

theorem plainCoder_reads {flags : UInt8} {id : CodecId} {properties : Option (List UInt8)}
    (hid : (flags &&& 0x0f).toNat = id.bytes.length) (hsimple : flags &&& 0x10 = 0)
    (hprops : (flags &&& 0x20 != 0) = properties.isSome)
    (hlength : ∀ props, properties = some props → props.length < 2 ^ 64) :
    Reads W CoderInfo.parse ([flags] ++ (id.bytes ++ sizedProperties properties))
      (plainCoder id properties) := by
  unfold CoderInfo.parse CoderInfoRef.parse
  rw [bind_assoc]
  refine (leU8_reads flags).bind ?_
  rw [hid, bind_assoc]
  refine Reads.take_append fun a => ?_
  rw [show (flags &&& 0x10 != 0) = false by rw [hsimple]; rfl, hprops, bind_assoc]
  show Reads W ((CoderInfoRef.attributes properties.isSome >>= _) >>= _) _ _
  rw [bind_assoc]
  cases properties with
  | none =>
    intro b rest _
    show (if h : id.bytes.length ≤ 15 then _ else _ : NomParser CoderInfo) _ = _
    rw [dif_pos id.length_le]
    rfl
  | some props =>
    obtain ⟨size, hsize, hreads⟩ := varuint_reads (W := W) (hlength props rfl)
    show Reads W ((sevenzipVaruint64Decode >>= _) >>= _) (Write.varuint props.length ++ props) _
    rw [bind_assoc]
    refine hreads.bind ?_
    rw [hsize, bind_assoc]
    refine Reads.take_bind fun b rest _ => ?_
    show (if h : id.bytes.length ≤ 15 then _ else _ : NomParser CoderInfo) _ = _
    rw [dif_pos id.length_le]
    rfl

/-! Lists of coders -/

def ReadAs (block : List UInt8) (coder : CoderInfo) : Prop :=
  Reads Window.all CoderInfo.parse block coder ∧ coder.numInStreams = 1 ∧ coder.numOutStreams = 1

theorem parseCoder_reads {block : List UInt8} {coder : CoderInfo} (h : ReadAs block coder) {k : ℕ}
    (hk : k + 1 ≤ MAX_FOLDER_STREAMS) (before : List CoderInfo) :
    Reads Window.all (Folder.parseCoder (⟨k, k⟩, before)) block (⟨k + 1, k + 1⟩, before ++ [coder]) := by
  obtain ⟨hread, hin, hout⟩ := h
  refine hread.bind_nil ?_
  rw [hin, hout]
  have hcounts : FolderStreamCounts.addCoder ⟨k, k⟩ 1 1 = Pure.pure ⟨k + 1, k + 1⟩ := by
    unfold FolderStreamCounts.addCoder
    have hbound : MAX_FOLDER_STREAMS < 2 ^ 64 := by decide
    show (if k + 1 ≥ 2 ^ 64 ∨ k + 1 ≥ 2 ^ 64 then _ else if k + 1 > MAX_FOLDER_STREAMS ∨
      k + 1 > MAX_FOLDER_STREAMS then _ else _ : NomParser FolderStreamCounts) = _
    rw [if_neg (by omega), if_neg (by omega)]
    rfl
  show Reads Window.all (FolderStreamCounts.addCoder ⟨k, k⟩ 1 1 >>= _) [] _
  rw [hcounts]
  exact Reads.pure _

theorem coders_read {blocks : List (List UInt8)} {coders : List CoderInfo}
    (h : List.Forall₂ ReadAs blocks coders) : ∀ {k : ℕ} {before : List CoderInfo},
    k + coders.length ≤ MAX_FOLDER_STREAMS →
    Reads Window.all (iterate Folder.parseCoder coders.length (⟨k, k⟩, before)) blocks.flatten
      (⟨k + coders.length, k + coders.length⟩, before ++ coders) := by
  induction h with
  | nil =>
    intro k before _
    rw [List.append_nil]
    exact Reads.pure _
  | @cons block coder blocks coders hfirst _ ih =>
    intro k before hk
    rw [List.length_cons] at hk ⊢
    rw [List.flatten_cons]
    refine (parseCoder_reads hfirst (by omega) before).bind ?_
    have hrest := @ih (k + 1) (before ++ [coder]) (by omega)
    rwa [List.append_assoc, List.singleton_append, Nat.add_assoc, Nat.add_comm 1] at hrest

def linePairs (n : ℕ) : List (UInt64 × UInt64) :=
  (List.range (n - 1)).map fun k => (UInt64.ofNat (k + 1), UInt64.ofNat k)

def lineFolder (coders : List CoderInfo) : Folder :=
  { coders, bindPairs := linePairs coders.length, packedIndices := [] }

def linePairBytes (n : ℕ) : List UInt8 :=
  (List.range (n - 1)).flatMap fun k => Write.varuint (k + 1) ++ Write.varuint k

theorem streamIndex_reads {n total : ℕ} (hn : n < total) (htotal : total ≤ MAX_FOLDER_STREAMS) :
    Reads Window.all (streamIndex total) (Write.varuint n) (UInt64.ofNat n) := by
  have hlt : n < 2 ^ 64 := (hn.trans_le htotal).trans (by decide)
  refine (sevenzipVaruint64Decode_reads (UInt64.ofNat n)).bind_nil ?_
  have hchecked : checkedStreamIndex (UInt64.ofNat n) total = Pure.pure () := by
    unfold checkedStreamIndex
    rw [UInt64.toNat_ofNat_of_lt' hlt, if_pos hn]
  rw [hchecked]
  exact Reads.pure _

theorem linePairs_read {n : ℕ} (hn : n ≤ MAX_FOLDER_STREAMS) :
    Reads Window.all (count (bindPair ⟨n, n⟩) (n - 1)) (linePairBytes n) (linePairs n) := by
  have hpair : ∀ pair ∈ linePairs n, Reads Window.all (bindPair ⟨n, n⟩)
      (sevenzipVaruint64Encode pair.1 ++ sevenzipVaruint64Encode pair.2) pair := by
    intro pair hmem
    obtain ⟨k, hk, rfl⟩ := List.mem_map.mp hmem
    have hlt := List.mem_range.mp hk
    exact (streamIndex_reads (by omega) hn).bind
      ((streamIndex_reads (by omega) hn).bind_nil (Reads.pure _))
  have hread := Reads.count hpair
  unfold linePairs at hread
  rwa [List.length_map, List.length_range, List.flatMap_map] at hread

theorem lineFolder_reads {blocks : List (List UInt8)} {coders : List CoderInfo}
    (h : List.Forall₂ ReadAs blocks coders) (hpos : coders ≠ [])
    (hcount : coders.length ≤ MAX_FOLDER_STREAMS) :
    Reads Window.all Folder.parse (Write.varuint coders.length ++ (blocks.flatten ++
      linePairBytes coders.length)) (lineFolder coders) := by
  have hlength : 0 < coders.length := List.length_pos_iff.mpr hpos
  obtain ⟨n, hn, hread⟩ := varuint_reads (W := Window.all)
    (show coders.length < 2 ^ 64 from lt_of_le_of_lt hcount (by decide))
  unfold Folder.parse
  refine hread.bind ?_
  have hchecked : checkedCoderCount n = Pure.pure coders.length := by
    unfold checkedCoderCount
    rw [hn, if_pos ⟨hlength, hcount⟩]
  rw [hchecked, pure_bind]
  have hcoders := @coders_read blocks coders h 0 [] (by omega)
  rw [Nat.zero_add, List.nil_append] at hcoders
  refine hcoders.bind ?_
  have hlayout : FolderStreamCounts.layout ⟨coders.length, coders.length⟩ =
      Pure.pure (coders.length - 1, 1) := by
    unfold FolderStreamCounts.layout
    dsimp only
    rw [if_neg (by omega), if_neg (by omega), show coders.length - (coders.length - 1) = 1 by omega]
  dsimp only
  rw [hlayout, pure_bind]
  exact (linePairs_read hcount).bind_nil (Reads.pure (lineFolder coders))

end

/-! The graph of such a folder -/

/-- The coders run as they are written, from the packed stream before the first to the output of the
last. -/
structure FolderGraph.RunsAsWritten (graph : FolderGraph) (coders : List CoderInfo) : Prop where
  graph_eq : (lineFolder coders).graph = .ok graph
  order : graph.executionOrder = List.range coders.length
  packed : graph.packedInputs = [0]
  first : (lineFolder coders).inputOwners[0]? = some 0
  final : graph.finalOutput = coders.length - 1
  last : (lineFolder coders).outputOwners[graph.finalOutput]? = some (coders.length - 1)

section
variable {coders : List CoderInfo}

theorem mem_linePairs {n : ℕ} (hn : n ≤ MAX_FOLDER_STREAMS) {pair : UInt64 × UInt64} :
    pair ∈ linePairs n → pair.1.toNat = pair.2.toNat + 1 ∧ pair.1.toNat < n := by
  have hmax : MAX_FOLDER_STREAMS < 2 ^ 64 := by decide
  intro hmem
  obtain ⟨k, hk, rfl⟩ := List.mem_map.mp hmem
  have hlt := List.mem_range.mp hk
  dsimp only
  rw [UInt64.toNat_ofNat_of_lt' (show k + 1 < 2 ^ 64 by omega),
    UInt64.toNat_ofNat_of_lt' (show k < 2 ^ 64 by omega)]
  exact ⟨rfl, by omega⟩

theorem linePairs_outputs {n : ℕ} (hn : n ≤ MAX_FOLDER_STREAMS) :
    (linePairs n).map (fun pair => pair.2.toNat) = List.range (n - 1) := by
  have hmax : MAX_FOLDER_STREAMS < 2 ^ 64 := by decide
  unfold linePairs
  rw [List.map_map]
  conv_rhs => rw [← List.map_id (List.range (n - 1))]
  apply List.map_congr_left
  intro k hk
  have hlt := List.mem_range.mp hk
  exact UInt64.toNat_ofNat_of_lt' (show k < 2 ^ 64 by omega)

theorem linePairs_inputs {n : ℕ} (hn : n ≤ MAX_FOLDER_STREAMS) :
    (linePairs n).map (fun pair => pair.1.toNat) = (List.range (n - 1)).map (· + 1) := by
  rw [← linePairs_outputs hn, List.map_map]
  exact List.map_congr_left fun pair hpair => (mem_linePairs hn hpair).1

variable (hsimple : (lineFolder coders).Simple) (hcount : coders.length ≤ MAX_FOLDER_STREAMS)
include hsimple hcount

theorem lineFolder_valid (harity : ∀ coder ∈ coders, coder.HasArity) (hpos : coders ≠ []) :
    (lineFolder coders).ValidGraph := by
  have hlength : 0 < coders.length := List.length_pos_iff.mpr hpos
  have hin : (lineFolder coders).totalInStreams = coders.length := hsimple.totalInStreams
  have hout : (lineFolder coders).totalOutStreams = coders.length := hsimple.totalOutStreams
  have hpairs : (lineFolder coders).bindPairs.length + 1 = coders.length := by
    show (linePairs coders.length).length + 1 = coders.length
    unfold linePairs
    rw [List.length_map, List.length_range]
    omega
  have hrange : (lineFolder coders).InRange := by
    intro pair hpair
    obtain ⟨hnext, hlt⟩ := mem_linePairs hcount hpair
    rw [hin, hout]
    exact ⟨hlt, by omega⟩
  have hinputs : ((lineFolder coders).bindPairs.map fun pair => pair.1.toNat).Nodup := by
    show ((linePairs coders.length).map fun pair => pair.1.toNat).Nodup
    rw [linePairs_inputs hcount]
    exact List.nodup_range.map (Nat.succ_injective)
  refine ⟨harity, hin ▸ hcount, hout ▸ hcount, hpairs.trans hout.symm, hrange, hinputs, ?_, ?_, ?_⟩
  · show ((linePairs coders.length).map fun pair => pair.2.toNat).Nodup
    rw [linePairs_outputs hcount]
    exact List.nodup_range
  · have hup : ∀ c d, Relation.TransGen (lineFolder coders).Feeds c d → c < d := by
      intro c d hcd
      have hstep : ∀ c d, (lineFolder coders).Feeds c d → c < d := by
        intro c d hfeeds
        obtain ⟨pair, hpair, rfl, rfl⟩ := (hsimple.feeds_iff hrange).mp hfeeds
        rw [(mem_linePairs hcount hpair).1]
        exact Nat.lt_succ_self _
      induction hcd with
      | single h => exact hstep _ _ h
      | tail _ h ih => exact ih.trans (hstep _ _ h)
    exact fun c hc => lt_irrefl c (hup c c hc)
  · have hfree := @Bindings.length_free (lineFolder coders).totalInStreams _ hinputs fun i hi => by
      obtain ⟨pair, hpair, rfl⟩ := List.mem_map.mp hi
      exact (hrange pair hpair).1
    rw [List.length_map, hin] at hfree
    have hone : (lineFolder coders).bindPairs.length + (lineFolder coders).freeInputs.length =
        coders.length := by
      unfold Folder.freeInputs
      rw [hin]
      exact hfree
    exact .inr ⟨rfl, by omega⟩

theorem lineFolder_runs {graph : FolderGraph} (hgraph : (lineFolder coders).graph = .ok graph) :
    graph.RunsAsWritten coders := by
  have hvalid := Folder.graph_ok_iff.mp ⟨graph, hgraph⟩
  have hrange : (lineFolder coders).InRange := hvalid.inRange
  obtain ⟨hall, ⟨input, hpacked, hfirst, hne⟩, hnext, hlast, hown⟩ := hsimple.followsData hgraph
  have hlength : graph.executionOrder.length = coders.length := by
    rw [hall.length_eq, List.length_range]
    rfl
  have hpos : 0 < graph.executionOrder.length := List.length_pos_iff.mpr hne
  -- the only input that is not bound is that of the first coder
  have hinput : input = 0 := by
    have hfree : input ∈ (lineFolder coders).freeInputs := by
      rw [← (Folder.packedInputs_perm hgraph).mem_iff, hpacked]
      exact List.mem_singleton_self input
    obtain ⟨hlt, hunbound⟩ := List.mem_filter.mp hfree
    have hlt := List.mem_range.mp hlt
    rw [hsimple.totalInStreams] at hlt
    by_contra hzero
    have hpositive : 0 < input := Nat.pos_of_ne_zero hzero
    refine of_decide_eq_true hunbound ?_
    show input ∈ (linePairs coders.length).map fun pair => pair.1.toNat
    rw [linePairs_inputs hcount]
    refine List.mem_map.mpr ⟨input - 1, List.mem_range.mpr ?_, Nat.sub_add_cancel hpositive⟩
    exact Nat.sub_lt_sub_right hpositive hlt
  -- each coder is fed by the one before it, so they run as they are written
  have hat : ∀ k, k < coders.length → graph.executionOrder[k]? = some k := by
    intro k
    induction k with
    | zero =>
      intro hlt
      rw [← List.head?_eq_getElem?, ← hfirst, hinput]
      exact (hown 0 hlt).1
    | succ k ih =>
      intro hlt
      have hat' := List.getElem?_eq_getElem (hlength ▸ hlt)
      obtain ⟨pair, hpair, hk, hd⟩ := (hsimple.feeds_iff hrange).mp
        (hnext k k _ (ih (Nat.lt_of_succ_lt hlt)) hat')
      rw [hat', ← hd, (mem_linePairs hcount hpair).1, hk]
  have horder : graph.executionOrder = List.range coders.length := by
    apply List.ext_getElem?
    intro k
    by_cases hk : k < coders.length
    · rw [hat k hk, List.getElem?_range hk]
    · rw [List.getElem?_eq_none (by omega), List.getElem?_eq_none (by rw [List.length_range]; omega)]
  have hlt : coders.length - 1 < coders.length := by omega
  rw [List.getLast?_eq_getElem?, hlength, hat _ hlt, hsimple.outputOwners] at hlast
  have hfinal := Folder.Simple.owner_eq hlast
  refine ⟨hgraph, horder, by rw [hpacked, hinput], (hown 0 (by show 0 < coders.length; omega)).1, hfinal, ?_⟩
  rw [hfinal]
  exact (hown _ hlt).2

end

/-! The encoders -/

theorem SevenZMethod.id_length_le (method : SevenZMethod) : method.id.length ≤ 15 := by
  cases method <;> decide

def SevenZMethod.coder (method : SevenZMethod) (properties : Option (List UInt8)) : CoderInfo :=
  plainCoder ⟨method.id, method.id_length_le⟩ properties

namespace SevenZMethod

theorem coder_hasArity {method : SevenZMethod} (properties : Option (List UInt8))
    (h : ∀ found, methodFromId method.id = some found → found.streamArity = (1, 1)) :
    (method.coder properties).HasArity := by
  have hone : 1 ≤ (1 : UInt64).toNat ∧ (1 : UInt64).toNat ≤ MAX_FOLDER_STREAMS := by decide
  exact ⟨fun found hfound => (h found hfound).symm, hone, hone⟩

theorem coder_readAs {method : SevenZMethod} {flags : UInt8} {properties : Option (List UInt8)}
    (hid : (flags &&& 0x0f).toNat = method.id.length) (hsimple : flags &&& 0x10 = 0)
    (hprops : (flags &&& 0x20 != 0) = properties.isSome)
    (hlength : ∀ props, properties = some props → props.length < 2 ^ 64) :
    ReadAs ([flags] ++ (method.id ++ sizedProperties properties)) (method.coder properties) :=
  ⟨@plainCoder_reads Window.all flags ⟨method.id, method.id_length_le⟩ properties hid hsimple hprops hlength,
    rfl, rfl⟩

end SevenZMethod

namespace Write.CoderSpec

def method : CoderSpec → SevenZMethod
  | .Copy => .Copy
  | .Lzma _ => .Lzma
  | .Lzma2 _ => .Lzma2
  | .Ppmd _ => .Ppmd
  | .Bcj => .Bcj

def properties : CoderSpec → Option (List UInt8)
  | .Copy => none
  | .Lzma props => some props
  | .Lzma2 prop => some [prop]
  | .Ppmd props => some props
  | .Bcj => none

def coderInfo (spec : CoderSpec) : CoderInfo := spec.method.coder spec.properties

def Sized : CoderSpec → Prop
  | .Lzma props => props.length = 5
  | .Ppmd props => props.length = 5
  | _ => True

theorem hasArity (spec : CoderSpec) : spec.coderInfo.HasArity := by
  apply SevenZMethod.coder_hasArity
  intro found hfound
  cases spec <;> exact Option.some.inj hfound ▸ rfl

theorem readAs {spec : CoderSpec} (h : spec.Sized) : ReadAs (encodeCoderSpec spec) spec.coderInfo := by
  have hflags : ∀ flags : UInt8, (flags &&& 0x0f).toNat = spec.method.id.length → flags &&& 0x10 = 0 →
      (flags &&& 0x20 != 0) = spec.properties.isSome →
      encodeCoderSpec spec = [flags] ++ (spec.method.id ++ sizedProperties spec.properties) →
      ReadAs (encodeCoderSpec spec) spec.coderInfo := by
    intro flags hid hsimple hprops hbytes
    rw [hbytes]
    refine SevenZMethod.coder_readAs hid hsimple hprops fun props hsome => ?_
    have hlength : props.length ≤ 5 := by
      cases spec with
      | Copy => cases hsome
      | Bcj => cases hsome
      | Lzma2 prop =>
        obtain rfl := Option.some.inj hsome
        exact (by decide : 1 ≤ 5)
      | Lzma props' =>
        obtain rfl := Option.some.inj hsome
        exact h.le
      | Ppmd props' =>
        obtain rfl := Option.some.inj hsome
        exact h.le
    omega
  cases spec with
  | Copy => exact hflags 0x01 rfl rfl rfl rfl
  | Bcj => exact hflags 0x04 rfl rfl rfl rfl
  | Lzma2 prop => exact hflags 0x21 rfl rfl rfl rfl
  | Lzma props =>
    have hlength : props.length = 5 := h
    refine hflags 0x23 rfl rfl rfl ?_
    show _ = [0x23] ++ (SevenZMethod.Lzma.id ++ (varuint props.length ++ props))
    rw [hlength]
    rfl
  | Ppmd props =>
    have hlength : props.length = 5 := h
    refine hflags 0x23 rfl rfl rfl ?_
    show _ = [0x23] ++ (SevenZMethod.Ppmd.id ++ (varuint props.length ++ props))
    rw [hlength]
    rfl

end Write.CoderSpec

def aesCoder (props : List UInt8) : CoderInfo := SevenZMethod.SevenZAes.coder (some props)

structure ParsesBack (bytes : List UInt8) (coders : List CoderInfo) (graph : FolderGraph) : Prop where
  reads : Reads Window.all Folder.parse bytes (lineFolder coders)
  runs : graph.RunsAsWritten coders

theorem parsesBack {blocks : List (List UInt8)} {coders : List CoderInfo}
    (hreads : List.Forall₂ ReadAs blocks coders) (harity : ∀ coder ∈ coders, coder.HasArity)
    (hpos : coders ≠ []) (hcount : coders.length ≤ MAX_FOLDER_STREAMS) :
    ∃ graph, ParsesBack (Write.varuint coders.length ++ (blocks.flatten ++ linePairBytes coders.length))
      coders graph := by
  have hsimple : (lineFolder coders).Simple := by
    intro coder hcoder
    obtain ⟨block, -, -, hone⟩ := exists_related hreads.flip hcoder
    exact hone
  obtain ⟨graph, hgraph⟩ := Folder.graph_ok_iff.mpr (lineFolder_valid hsimple hcount harity hpos)
  exact ⟨graph, lineFolder_reads hreads hpos hcount, lineFolder_runs hsimple hcount hgraph⟩

namespace Write

theorem specs_readAs : ∀ {specs : List CoderSpec}, (∀ spec ∈ specs, spec.Sized) →
    List.Forall₂ ReadAs (specs.map encodeCoderSpec) (specs.map CoderSpec.coderInfo)
  | [], _ => .nil
  | spec :: _, h => .cons (CoderSpec.readAs (h spec (List.mem_cons_self ..)))
      (specs_readAs fun later hlater => h later (List.mem_cons_of_mem _ hlater))

theorem specs_hasArity {specs : List CoderSpec} :
    ∀ coder ∈ specs.map CoderSpec.coderInfo, coder.HasArity := by
  intro coder hcoder
  obtain ⟨spec, -, rfl⟩ := List.mem_map.mp hcoder
  exact spec.hasArity

def plainCoderInfo (specs : List CoderSpec) : List UInt8 :=
  varuint specs.length ++ (specs.flatMap encodeCoderSpec ++ linePairBytes specs.length)

theorem encodeCoderInfoCopy_eq : encodeCoderInfoCopy = plainCoderInfo [.Copy] := rfl

theorem encodeCoderInfoLzma_eq (props : List UInt8) :
    encodeCoderInfoLzma props = plainCoderInfo [.Lzma props] := by
  simp [encodeCoderInfoLzma, plainCoderInfo, encodeCoderSpec, linePairBytes]

theorem encodeCoderInfoLzma2_eq (property : UInt8) :
    encodeCoderInfoLzma2 property = plainCoderInfo [.Lzma2 property] := by
  simp [encodeCoderInfoLzma2, plainCoderInfo, encodeCoderSpec, linePairBytes]

theorem encodeCoderInfoPpmd_eq (props : List UInt8) :
    encodeCoderInfoPpmd props = plainCoderInfo [.Ppmd props] := by
  simp [encodeCoderInfoPpmd, plainCoderInfo, encodeCoderSpec, linePairBytes]

theorem encodeCoderInfoBcjLzma2_eq (property : UInt8) :
    encodeCoderInfoBcjLzma2 property = plainCoderInfo [.Lzma2 property, .Bcj] := by
  simp [encodeCoderInfoBcjLzma2, plainCoderInfo, encodeCoderSpec, linePairBytes]

theorem specs_parseBack {specs : List CoderSpec} (hsized : ∀ spec ∈ specs, spec.Sized) (hpos : specs ≠ [])
    (hcount : specs.length ≤ MAX_FOLDER_STREAMS) : ∃ graph,
      ParsesBack (plainCoderInfo specs) (specs.map CoderSpec.coderInfo) graph := by
  have h := parsesBack (specs_readAs hsized) specs_hasArity
    (fun hnil => hpos (List.map_eq_nil_iff.mp hnil)) (by rwa [List.length_map])
  rwa [List.length_map] at h

theorem aesThen_parsesBack {inner : List CoderSpec} {props : List UInt8}
    (hsized : ∀ spec ∈ inner, spec.Sized) (hcount : inner.length + 1 ≤ MAX_FOLDER_STREAMS)
    (hprops : props.length < 2 ^ 64) : ∃ graph, ParsesBack (encodeCoderInfoAesThen inner props)
      (aesCoder props :: inner.map CoderSpec.coderInfo) graph := by
  have haes : ReadAs ([0x24] ++ (SevenZMethod.SevenZAes.id ++ sizedProperties (some props)))
      (aesCoder props) := by
    refine SevenZMethod.coder_readAs rfl rfl rfl fun props' hsome => ?_
    rw [← Option.some.inj hsome]
    exact hprops
  have harity : ∀ coder ∈ aesCoder props :: inner.map CoderSpec.coderInfo, coder.HasArity := by
    intro coder hcoder
    rcases List.mem_cons.mp hcoder with rfl | hcoder
    · exact SevenZMethod.coder_hasArity _ fun found hfound => Option.some.inj hfound ▸ rfl
    · exact specs_hasArity coder hcoder
  have hlength : (aesCoder props :: inner.map CoderSpec.coderInfo).length = 1 + inner.length := by
    rw [List.length_cons, List.length_map, Nat.add_comm]
  have h := parsesBack (.cons haes (specs_readAs hsized)) harity (List.cons_ne_nil _ _)
    (by rw [hlength]; omega)
  rw [hlength] at h
  have hbytes : encodeCoderInfoAesThen inner props = varuint (1 + inner.length) ++
      ((([0x24] ++ (SevenZMethod.SevenZAes.id ++ sizedProperties (some props))) ::
        inner.map encodeCoderSpec).flatten ++ linePairBytes (1 + inner.length)) := by
    unfold encodeCoderInfoAesThen linePairBytes
    rw [List.flatten_cons, ← List.flatMap_def, Nat.add_sub_cancel_left]
    simp only [sizedProperties, List.append_assoc]
    rfl
  rw [hbytes]
  exact h

/-! The sizes of a folder that is completed -/

open Effect

def AesProps (props : List UInt8) : Prop :=
  ∃ power salt iv, salt.length ≤ 16 ∧ iv.length ≤ 16 ∧ props = encodeAesProperties power salt iv

theorem AesProps.length_lt {props : List UInt8} (h : AesProps props) : props.length < 2 ^ 64 := by
  obtain ⟨power, salt, iv, hsalt, hiv, rfl⟩ := h
  unfold encodeAesProperties
  rw [List.length_append, List.length_singleton]
  by_cases hnone : salt.isEmpty ∧ iv.isEmpty
  · rw [if_pos hnone]
    exact (by decide : 1 + 0 < 2 ^ 64)
  · rw [if_neg hnone, List.length_append, List.length_append, List.length_singleton]
    omega

def PreparedArchiveOptions.specs (outside : Outside) (prepared : PreparedArchiveOptions) :
    Except R7zError (List CoderSpec) :=
  match prepared.codec with
  | .Copy => .ok [.Copy]
  | .Lzma => .ok [.Lzma (outside.lzmaProps prepared :: toLeBytes 4 prepared.dictSize.toNat)]
  | .Lzma2 => (lzma2PropertyByte prepared).map fun property => [.Lzma2 property]
  | .Ppmd order memorySize => .ok [.Ppmd (order :: toLeBytes 4 memorySize.toNat)]
  | .Lzma2Bcj => (lzma2PropertyByte prepared).map fun property => [.Lzma2 property, .Bcj]

def encodedBytes (outside : Outside) (prepared : PreparedArchiveOptions) (knownSize : Option UInt64)
    (chunks : List (List UInt8)) : List UInt8 :=
  match prepared.codec with
  | .Copy => chunks.flatten
  | .Lzma => (outside.lzma prepared).encode chunks
  | .Lzma2 => (outside.lzma2 prepared knownSize).encode chunks
  | .Ppmd order memorySize => (outside.ppmd order memorySize).encode chunks
  | .Lzma2Bcj => (outside.bcjLzma2 prepared knownSize).encode chunks

theorem Encoder.emitted_append (encoder : Encoder) : ∀ (before chunks : List (List UInt8))
    (chunk : List UInt8), encoder.emitted before (chunks ++ [chunk]) =
      encoder.emitted before chunks ++ encoder.emit (before ++ chunks) chunk
  | before, [], chunk => by
    show encoder.emit before chunk ++ [] = [] ++ encoder.emit (before ++ []) chunk
    rw [List.append_nil, List.append_nil, List.nil_append]
  | before, first :: chunks, chunk => by
    show encoder.emit before first ++ encoder.emitted (before ++ [first]) (chunks ++ [chunk]) = _
    rw [encoder.emitted_append (before ++ [first]) chunks chunk, List.append_assoc, List.singleton_append,
      ← List.append_assoc]
    rfl

section
variable {outside : Outside} {prepared : PreparedArchiveOptions} {knownSize : Option UInt64}
  {w w' : ArchiveWriter}

namespace PayloadWriter

def Carries (prepared : PreparedArchiveOptions) (bytes : List UInt8) : PayloadWriter → Prop
  | .Plain _ => prepared.encryption = none
  | .Aes _ _ props plaintextSize _ _ =>
    prepared.encryption.isSome ∧ plaintextSize = UInt64.ofNat bytes.length ∧ AesProps props

theorem carries_new {payload : PayloadWriter}
    (h : PayloadWriter.new outside prepared w = (.ok payload, w')) : payload.Carries prepared [] := by
  unfold PayloadWriter.new at h
  cases hencryption : prepared.encryption with
  | none =>
    rw [hencryption] at h
    cases h
    exact hencryption
  | some encryption =>
    rw [hencryption] at h
    obtain ⟨⟨key, iv, props⟩, w₁, hmaterial, h⟩ := Machine.bind_eq_ok.mp h
    cases h
    obtain ⟨salt, w₂, hsalt, hmaterial⟩ := Machine.bind_eq_ok.mp hmaterial
    obtain ⟨ivBytes, w₃, hiv, hmaterial⟩ := Machine.bind_eq_ok.mp hmaterial
    obtain ⟨_, w₄, -, hmaterial⟩ := Machine.bind_eq_ok.mp hmaterial
    cases hmaterial
    have hrandom : ∀ {n : ℕ} {bytes : List UInt8} {v v' : ArchiveWriter},
        randomBytes outside n v = (.ok bytes, v') → bytes.length = n := by
      intro n bytes v v' hbytes
      obtain ⟨_, v₁, -, hbytes⟩ := Machine.bind_eq_ok.mp hbytes
      cases hbytes
      rw [List.length_map, List.length_range]
    refine ⟨by rw [hencryption]; rfl, rfl, encryption.numCyclesPower, salt, ivBytes, ?_, ?_, rfl⟩
    · rw [hrandom hsalt]
      exact encryption.salt_le
    · rw [hrandom hiv]
      exact encryption.iv_le

theorem Carries.write {payload payload' : PayloadWriter} {bytes more : List UInt8}
    (hcarries : payload.Carries prepared bytes)
    (h : payload.write outside more w = (.ok payload', w')) : payload'.Carries prepared (bytes ++ more) := by
  cases payload with
  | Plain count =>
    obtain ⟨count, w₁, -, h⟩ := Machine.bind_eq_ok.mp h
    cases h
    exact hcarries
  | Aes key iv props plaintextSize pieces count =>
    obtain ⟨hsome, hsize, hprops⟩ := hcarries
    obtain ⟨size, w₁, hadd, h⟩ := Machine.bind_eq_ok.mp h
    obtain ⟨count, w₂, -, h⟩ := Machine.bind_eq_ok.mp h
    cases h
    refine ⟨hsome, ?_, hprops⟩
    rw [checkedAdd_eq_ok (Prod.mk.inj hadd).1, hsize, List.length_append, UInt64.ofNat_add]

theorem Carries.finish {payload : PayloadWriter} {bytes : List UInt8} {packSize : UInt64}
    {encrypted : Option EncryptedPayload} (hcarries : payload.Carries prepared bytes)
    (h : payload.finish outside w = (.ok (packSize, encrypted), w')) :
    encrypted.isSome = prepared.encryption.isSome ∧ ∀ cipher, encrypted = some cipher →
      cipher.plaintextSize = UInt64.ofNat bytes.length ∧ AesProps cipher.props := by
  cases payload with
  | Plain count =>
    cases h
    have hnone : prepared.encryption = none := hcarries
    rw [hnone]
    exact ⟨rfl, fun cipher hcipher => nomatch hcipher⟩
  | Aes key iv props plaintextSize pieces count =>
    obtain ⟨hsome, hsize, hprops⟩ := hcarries
    obtain ⟨count, w₁, -, h⟩ := Machine.bind_eq_ok.mp h
    cases h
    refine ⟨hsome.symm, fun cipher hcipher => ?_⟩
    obtain rfl := Option.some.inj hcipher
    exact ⟨hsize, hprops⟩

end PayloadWriter

def StreamingEncoder.Holds (outside : Outside) (prepared : PreparedArchiveOptions)
    (knownSize : Option UInt64) (chunks : List (List UInt8)) : StreamingEncoder → Prop
  | .Raw .. => False
  | .Copy payload => prepared.codec = .Copy ∧ payload.Carries prepared chunks.flatten
  | .Lzma2 known given payload => prepared.codec = .Lzma2 ∧ known = knownSize ∧ given = chunks ∧
      payload.Carries prepared ((outside.lzma2 prepared knownSize).emitted [] chunks)
  | .Lzma given payload props => prepared.codec = .Lzma ∧ given = chunks ∧
      props = outside.lzmaProps prepared :: toLeBytes 4 prepared.dictSize.toNat ∧
      payload.Carries prepared ((outside.lzma prepared).emitted [] chunks)
  | .Ppmd order memorySize given payload props => prepared.codec = .Ppmd order memorySize ∧
      given = chunks ∧ props = order :: toLeBytes 4 memorySize.toNat ∧
      payload.Carries prepared ((outside.ppmd order memorySize).emitted [] chunks)
  | .BcjLzma2 known given payload => prepared.codec = .Lzma2Bcj ∧ known = knownSize ∧ given = chunks ∧
      payload.Carries prepared ((outside.bcjLzma2 prepared knownSize).emitted [] chunks)

inductive StreamingFolder.Filled (outside : Outside) (prepared : PreparedArchiveOptions)
    (knownSize : Option UInt64) : StreamingFolder → List (List UInt8) → Prop where
  | encoded {folder : StreamingFolder} {w w' : ArchiveWriter}
      (h : StreamingFolder.encoded outside knownSize prepared w = (.ok folder, w')) :
      Filled outside prepared knownSize folder []
  | write {folder folder' : StreamingFolder} {chunks : List (List UInt8)} {bytes : List UInt8}
      {w w' : ArchiveWriter} (hbefore : Filled outside prepared knownSize folder chunks)
      (h : folder.write outside prepared bytes w = (.ok folder', w')) :
      Filled outside prepared knownSize folder' (chunks ++ [bytes])
  | recordStream {folder folder' : StreamingFolder} {chunks : List (List UInt8)}
      {entryIndex : WriteEntryIndex} {size : UInt64} {checksum : UInt32}
      (hbefore : Filled outside prepared knownSize folder chunks)
      (h : folder.recordStream entryIndex size checksum = .ok folder') :
      Filled outside prepared knownSize folder' chunks

theorem StreamingEncoder.holds_encoded {folder : StreamingFolder}
    (h : StreamingFolder.encoded outside knownSize prepared w = (.ok folder, w')) :
    folder.encoder.Holds outside prepared knownSize [] := by
  obtain ⟨_, w₁, -, h⟩ := Machine.bind_eq_ok.mp h
  obtain ⟨payload, w₂, hpayload, h⟩ := Machine.bind_eq_ok.mp h
  obtain ⟨_, w₃, -, h⟩ := Machine.bind_eq_ok.mp h
  have hcarries := PayloadWriter.carries_new hpayload
  obtain rfl := Except.ok.inj (Prod.mk.inj h).1
  dsimp only
  cases hcodec : prepared.codec with
  | Copy => exact ⟨hcodec, hcarries⟩
  | Lzma => exact ⟨hcodec, rfl, rfl, hcarries⟩
  | Lzma2 => exact ⟨hcodec, rfl, rfl, hcarries⟩
  | Ppmd order memorySize => exact ⟨hcodec, rfl, rfl, hcarries⟩
  | Lzma2Bcj => exact ⟨hcodec, rfl, rfl, hcarries⟩

theorem StreamingEncoder.Holds.write {encoder encoder' : StreamingEncoder} {chunks : List (List UInt8)}
    {bytes : List UInt8} (hholds : encoder.Holds outside prepared knownSize chunks)
    (h : StreamingFolder.writeEncoder outside prepared bytes encoder w = (.ok encoder', w')) :
    encoder'.Holds outside prepared knownSize (chunks ++ [bytes]) := by
  cases encoder with
  | Raw count packSizes coderInfo coderUnpackSizes folderCrc => exact hholds.elim
  | Copy payload =>
    obtain ⟨hcodec, hcarries⟩ := hholds
    obtain ⟨payload', w₁, hwrite, h⟩ := Machine.bind_eq_ok.mp h
    cases h
    refine ⟨hcodec, ?_⟩
    rw [List.flatten_append, List.flatten_singleton]
    exact hcarries.write hwrite
  | Lzma2 known given payload =>
    obtain ⟨hcodec, rfl, rfl, hcarries⟩ := hholds
    obtain ⟨payload', w₁, hwrite, h⟩ := Machine.bind_eq_ok.mp h
    cases h
    refine ⟨hcodec, rfl, rfl, ?_⟩
    rw [Encoder.emitted_append]
    exact hcarries.write hwrite
  | Lzma given payload props =>
    obtain ⟨hcodec, rfl, hprops, hcarries⟩ := hholds
    obtain ⟨payload', w₁, hwrite, h⟩ := Machine.bind_eq_ok.mp h
    cases h
    refine ⟨hcodec, rfl, hprops, ?_⟩
    rw [Encoder.emitted_append]
    exact hcarries.write hwrite
  | Ppmd order memorySize given payload props =>
    obtain ⟨hcodec, rfl, hprops, hcarries⟩ := hholds
    obtain ⟨payload', w₁, hwrite, h⟩ := Machine.bind_eq_ok.mp h
    cases h
    refine ⟨hcodec, rfl, hprops, ?_⟩
    rw [Encoder.emitted_append]
    exact hcarries.write hwrite
  | BcjLzma2 known given payload =>
    obtain ⟨hcodec, rfl, rfl, hcarries⟩ := hholds
    obtain ⟨payload', w₁, hwrite, h⟩ := Machine.bind_eq_ok.mp h
    cases h
    refine ⟨hcodec, rfl, rfl, ?_⟩
    rw [Encoder.emitted_append]
    exact hcarries.write hwrite

theorem StreamingFolder.Filled.holds {folder : StreamingFolder} {chunks : List (List UInt8)}
    (h : Filled outside prepared knownSize folder chunks) :
    folder.encoder.Holds outside prepared knownSize chunks := by
  induction h with
  | encoded h => exact StreamingEncoder.holds_encoded h
  | write _ h ih =>
    obtain ⟨_, w₁, -, h⟩ := Machine.bind_eq_ok.mp h
    obtain ⟨encoder, w₂, hwrite, h⟩ := Machine.bind_eq_ok.mp h
    obtain rfl := Except.ok.inj (Prod.mk.inj h).1
    exact ih.write hwrite
  | @recordStream folder folder' chunks entryIndex size checksum _ h ih =>
    have hsame : folder'.encoder = folder.encoder := by
      unfold StreamingFolder.recordStream at h
      split at h
      · cases h
      · obtain ⟨unpackSize, -, h⟩ := except_bind_eq_ok.mp h
        obtain rfl := Except.ok.inj h
        rfl
    rw [hsame]
    exact ih

def folderCoders (cipher : Option EncryptedPayload) (specs : List CoderSpec) : List CoderInfo :=
  (cipher.map fun c => aesCoder c.props).toList ++ specs.map CoderSpec.coderInfo

/-- The description of a completed folder is read back, and its sizes are those of the outputs: what the
cipher was given, then the size of the data for each coder of the codec. -/
structure LinesUp (completed : CompletedFolder) (outside : Outside) (prepared : PreparedArchiveOptions)
    (knownSize : Option UInt64) (chunks : List (List UInt8)) (unpackSize : UInt64)
    (cipher : Option EncryptedPayload) (specs : List CoderSpec) (graph : FolderGraph) : Prop where
  codec : prepared.specs outside = .ok specs
  encrypted : cipher.isSome = prepared.encryption.isSome
  plaintext : ∀ c, cipher = some c → AesProps c.props ∧
    c.plaintextSize = UInt64.ofNat (encodedBytes outside prepared knownSize chunks).length
  parses : ParsesBack completed.coderInfo (folderCoders cipher specs) graph
  sizes : completed.coderUnpackSizes =
    (cipher.map EncryptedPayload.plaintextSize).toList ++ specs.map fun _ => unpackSize
  outputs : completed.coderUnpackSizes.length = (lineFolder (folderCoders cipher specs)).totalOutStreams
  final : completed.coderUnpackSizes[graph.finalOutput]? = some unpackSize

theorem finishPayload_spec {payload : PayloadWriter} {bytes coderInfo info : List UInt8}
    {sizes sizes' : List UInt64} {specs : List CoderSpec} {packSize : UInt64}
    (hcarries : payload.Carries prepared bytes)
    (h : StreamingFolder.finishPayload outside payload coderInfo sizes specs w =
      (.ok (packSize, info, sizes'), w')) :
    ∃ cipher : Option EncryptedPayload, cipher.isSome = prepared.encryption.isSome ∧
      (∀ c, cipher = some c → AesProps c.props ∧ c.plaintextSize = UInt64.ofNat bytes.length) ∧
      info = (cipher.elim coderInfo fun c => encodeCoderInfoAesThen specs c.props) ∧
      sizes' = (cipher.map EncryptedPayload.plaintextSize).toList ++ sizes := by
  obtain ⟨⟨size, encrypted⟩, w₁, hfinish, h⟩ := Machine.bind_eq_ok.mp h
  obtain ⟨hsome, hcipher⟩ := hcarries.finish hfinish
  refine ⟨encrypted, hsome, fun c hc => ⟨(hcipher c hc).2, (hcipher c hc).1⟩, ?_⟩
  cases encrypted with
  | none =>
    cases h
    exact ⟨rfl, rfl⟩
  | some cipher =>
    cases h
    exact ⟨rfl, rfl⟩

theorem specs_sized {specs : List CoderSpec} (h : prepared.specs outside = .ok specs) :
    specs ≠ [] ∧ specs.length ≤ 2 ∧ ∀ spec ∈ specs, spec.Sized := by
  unfold PreparedArchiveOptions.specs at h
  split at h
  · obtain rfl := Except.ok.inj h
    simp [CoderSpec.Sized]
  · obtain rfl := Except.ok.inj h
    simp [CoderSpec.Sized]
  · cases hproperty : lzma2PropertyByte prepared with
    | error e =>
      rw [hproperty] at h
      cases h
    | ok property =>
      rw [hproperty] at h
      obtain rfl := Except.ok.inj h
      simp [CoderSpec.Sized]
  · obtain rfl := Except.ok.inj h
    simp [CoderSpec.Sized]
  · cases hproperty : lzma2PropertyByte prepared with
    | error e =>
      rw [hproperty] at h
      cases h
    | ok property =>
      rw [hproperty] at h
      obtain rfl := Except.ok.inj h
      simp [CoderSpec.Sized]

theorem linesUp_of_finish {payload : PayloadWriter} {info : List UInt8} {sizes : List UInt64}
    {specs : List CoderSpec} {packSize unpackSize : UInt64} {completed : CompletedFolder}
    {chunks : List (List UInt8)} (hspecs : prepared.specs outside = .ok specs)
    (hcarries : payload.Carries prepared (encodedBytes outside prepared knownSize chunks))
    (h : StreamingFolder.finishPayload outside payload (plainCoderInfo specs)
      (specs.map fun _ => unpackSize) specs w = (.ok (packSize, info, sizes), w'))
    (hinfo : completed.coderInfo = info) (hsizes : completed.coderUnpackSizes = sizes) :
    ∃ cipher specs graph,
      LinesUp completed outside prepared knownSize chunks unpackSize cipher specs graph := by
  obtain ⟨cipher, hencrypted, hplaintext, rfl, rfl⟩ := finishPayload_spec hcarries h
  obtain ⟨hne, hcount, hsized⟩ := specs_sized hspecs
  have hmax : 3 ≤ MAX_FOLDER_STREAMS := by decide
  obtain ⟨graph, hparses⟩ : ∃ graph, ParsesBack completed.coderInfo (folderCoders cipher specs) graph := by
    rw [hinfo]
    cases hcipher : cipher with
    | none => exact specs_parseBack hsized hne (by omega)
    | some c => exact aesThen_parsesBack hsized (by omega) (hplaintext c hcipher).1.length_lt
  have hlength : completed.coderUnpackSizes.length = (folderCoders cipher specs).length := by
    unfold folderCoders
    rw [hsizes, List.length_append, List.length_append, List.length_map, List.length_map]
    cases cipher <;> rfl
  have hsimple : (lineFolder (folderCoders cipher specs)).Simple := by
    intro coder hcoder
    rcases List.mem_append.mp hcoder with hcoder | hcoder
    · obtain ⟨c, -, rfl⟩ := Option.map_eq_some_iff.mp (Option.mem_toList.mp hcoder)
      exact ⟨rfl, rfl⟩
    · obtain ⟨spec, -, rfl⟩ := List.mem_map.mp hcoder
      exact ⟨rfl, rfl⟩
  refine ⟨cipher, specs, graph, hspecs, hencrypted, hplaintext, hparses, hsizes, ?_, ?_⟩
  · rw [hsimple.totalOutStreams]
    exact hlength
  · have hpos : 0 < specs.length := List.length_pos_iff.mpr hne
    rw [hparses.runs.final, ← hlength, ← List.getLast?_eq_getElem?, hsizes,
      List.getLast?_append_of_ne_nil _ (by rwa [Ne, List.map_eq_nil_iff])]
    rw [List.getLast?_eq_getElem?, List.length_map, List.getElem?_map,
      List.getElem?_eq_getElem (Nat.sub_lt hpos Nat.one_pos)]
    rfl

theorem closeInto_carries {payload payload' : PayloadWriter} {encoder : Encoder}
    {chunks : List (List UInt8)} (hcarries : payload.Carries prepared (encoder.emitted [] chunks))
    (h : StreamingFolder.closeInto outside payload encoder chunks w = (.ok payload', w')) :
    payload'.Carries prepared (encoder.encode chunks) := by
  obtain ⟨_, w₁, -, h⟩ := Machine.bind_eq_ok.mp h
  exact hcarries.write h

/-- Whatever codec a folder was opened for, it is completed with a description that lines up. -/
theorem StreamingFolder.Filled.linesUp {folder : StreamingFolder} {chunks : List (List UInt8)}
    {completed : CompletedFolder} (hfilled : folder.Filled outside prepared knownSize chunks)
    (h : folder.complete outside prepared w = (.ok completed, w')) :
    ∃ cipher specs graph,
      LinesUp completed outside prepared knownSize chunks folder.unpackSize cipher specs graph := by
  have hholds := hfilled.holds
  unfold StreamingFolder.complete at h
  dsimp only at h
  -- Copy has nothing to close; the others are closed, and then carry all that they were given
  rcases hencoder : folder.encoder with _ | payload | ⟨known, given, payload⟩ | ⟨given, payload, props⟩ |
    ⟨order, memorySize, given, payload, props⟩ | ⟨known, given, payload⟩
  · rw [hencoder] at hholds
    exact hholds.elim
  · rw [hencoder] at hholds h
    obtain ⟨hcodec, hcarries⟩ := hholds
    obtain ⟨⟨packSize, info, sizes⟩, w₁, hfinish, h⟩ := Machine.bind_eq_ok.mp h
    cases h
    have hspecs : prepared.specs outside = .ok [.Copy] := by
      unfold PreparedArchiveOptions.specs
      rw [hcodec]
    have hbytes : encodedBytes outside prepared knownSize chunks = chunks.flatten := by
      unfold encodedBytes
      rw [hcodec]
    rw [encodeCoderInfoCopy_eq] at hfinish
    exact linesUp_of_finish hspecs (hbytes ▸ hcarries) hfinish rfl rfl
  · rw [hencoder] at hholds h
    obtain ⟨hcodec, rfl, rfl, hcarries⟩ := hholds
    obtain ⟨property, w₁, hproperty, h⟩ := Machine.bind_eq_ok.mp h
    obtain ⟨closed, w₂, hclose, h⟩ := Machine.bind_eq_ok.mp h
    obtain ⟨⟨packSize, info, sizes⟩, w₃, hfinish, h⟩ := Machine.bind_eq_ok.mp h
    cases h
    have hspecs : prepared.specs outside = .ok [.Lzma2 property] := by
      unfold PreparedArchiveOptions.specs
      rw [hcodec]
      show (lzma2PropertyByte prepared).map _ = _
      rw [(Prod.mk.inj hproperty).1]
      rfl
    have hbytes : encodedBytes outside prepared known given = (outside.lzma2 prepared known).encode given := by
      unfold encodedBytes
      rw [hcodec]
    rw [encodeCoderInfoLzma2_eq] at hfinish
    exact linesUp_of_finish hspecs (hbytes ▸ closeInto_carries hcarries hclose) hfinish rfl rfl
  · rw [hencoder] at hholds h
    obtain ⟨hcodec, rfl, rfl, hcarries⟩ := hholds
    obtain ⟨closed, w₂, hclose, h⟩ := Machine.bind_eq_ok.mp h
    obtain ⟨⟨packSize, info, sizes⟩, w₃, hfinish, h⟩ := Machine.bind_eq_ok.mp h
    cases h
    have hspecs : prepared.specs outside =
        .ok [.Lzma (outside.lzmaProps prepared :: toLeBytes 4 prepared.dictSize.toNat)] := by
      unfold PreparedArchiveOptions.specs
      rw [hcodec]
    have hbytes : encodedBytes outside prepared knownSize given = (outside.lzma prepared).encode given := by
      unfold encodedBytes
      rw [hcodec]
    rw [encodeCoderInfoLzma_eq] at hfinish
    exact linesUp_of_finish hspecs (hbytes ▸ closeInto_carries hcarries hclose) hfinish rfl rfl
  · rw [hencoder] at hholds h
    obtain ⟨hcodec, rfl, rfl, hcarries⟩ := hholds
    obtain ⟨closed, w₂, hclose, h⟩ := Machine.bind_eq_ok.mp h
    obtain ⟨⟨packSize, info, sizes⟩, w₃, hfinish, h⟩ := Machine.bind_eq_ok.mp h
    cases h
    have hspecs : prepared.specs outside = .ok [.Ppmd (order :: toLeBytes 4 memorySize.toNat)] := by
      unfold PreparedArchiveOptions.specs
      rw [hcodec]
    have hbytes : encodedBytes outside prepared knownSize given =
        (outside.ppmd order memorySize).encode given := by
      unfold encodedBytes
      rw [hcodec]
    rw [encodeCoderInfoPpmd_eq] at hfinish
    exact linesUp_of_finish hspecs (hbytes ▸ closeInto_carries hcarries hclose) hfinish rfl rfl
  · rw [hencoder] at hholds h
    obtain ⟨hcodec, rfl, rfl, hcarries⟩ := hholds
    obtain ⟨closed, w₂, hclose, h⟩ := Machine.bind_eq_ok.mp h
    obtain ⟨property, w₁, hproperty, h⟩ := Machine.bind_eq_ok.mp h
    obtain ⟨⟨packSize, info, sizes⟩, w₃, hfinish, h⟩ := Machine.bind_eq_ok.mp h
    cases h
    have hspecs : prepared.specs outside = .ok [.Lzma2 property, .Bcj] := by
      unfold PreparedArchiveOptions.specs
      rw [hcodec]
      show (lzma2PropertyByte prepared).map _ = _
      rw [(Prod.mk.inj hproperty).1]
      rfl
    have hbytes : encodedBytes outside prepared known given =
        (outside.bcjLzma2 prepared known).encode given := by
      unfold encodedBytes
      rw [hcodec]
    rw [encodeCoderInfoBcjLzma2_eq] at hfinish
    exact linesUp_of_finish hspecs (hbytes ▸ closeInto_carries hcarries hclose) hfinish rfl rfl

end

theorem power_and {power : UInt8} (h : power < 64) : power &&& 0x3F = power := by
  have hall : ∀ n : Fin 256, UInt8.ofFin n < 64 → UInt8.ofFin n &&& 0x3F = UInt8.ofFin n := by
    decide +kernel
  exact hall power.toFin h

theorem paddedIv_eq {iv : List UInt8} (h : iv.length ≤ 16) :
    paddedIv iv = iv ++ List.replicate (16 - iv.length) 0 := by
  unfold paddedIv
  rw [List.take_append, List.take_of_length_le h, List.take_replicate, Nat.min_eq_left (Nat.sub_le _ _)]

/-- Every description of a folder that the writer puts down is read back, to its end and no further, as
the coders it lists, the cipher before the others: each feeds the next, the packed stream the first, and
the output is that of the last. The properties of the cipher are read back as well, of the power its six
bits, and the sizes that go with a folder are those of its outputs. -/
theorem folder_encoders_parse_back :
    (∃ graph, ParsesBack encodeCoderInfoCopy [CoderSpec.Copy.coderInfo] graph) ∧
    (∀ props : List UInt8, props.length = 5 →
      ∃ graph, ParsesBack (encodeCoderInfoLzma props) [(CoderSpec.Lzma props).coderInfo] graph) ∧
    (∀ property, ∃ graph,
      ParsesBack (encodeCoderInfoLzma2 property) [(CoderSpec.Lzma2 property).coderInfo] graph) ∧
    (∀ props : List UInt8, props.length = 5 →
      ∃ graph, ParsesBack (encodeCoderInfoPpmd props) [(CoderSpec.Ppmd props).coderInfo] graph) ∧
    (∀ property, ∃ graph, ParsesBack (encodeCoderInfoBcjLzma2 property)
      [(CoderSpec.Lzma2 property).coderInfo, CoderSpec.Bcj.coderInfo] graph) ∧
    (∀ (inner : List CoderSpec) (power : UInt8) (salt iv : List UInt8), (∀ spec ∈ inner, spec.Sized) →
      inner.length + 1 ≤ MAX_FOLDER_STREAMS → salt.length ≤ 16 → iv.length ≤ 16 →
      (∃ graph, ParsesBack (encodeCoderInfoAesThen inner (encodeAesProperties power salt iv))
        (aesCoder (encodeAesProperties power salt iv) :: inner.map CoderSpec.coderInfo) graph) ∧
      ∃ props, AesProperties.parse (encodeAesProperties power salt iv) = .ok props ∧
        props.numCyclesPower = power &&& 0x3F ∧ (power < 64 → props.numCyclesPower = power) ∧
        props.salt = salt ∧ props.iv = iv ++ List.replicate (16 - iv.length) 0) ∧
    ∀ outside prepared knownSize folder chunks completed w w',
      StreamingFolder.Filled outside prepared knownSize folder chunks →
      folder.complete outside prepared w = (.ok completed, w') → ∃ cipher specs graph,
        LinesUp completed outside prepared knownSize chunks folder.unpackSize cipher specs graph := by
  have hone : 1 ≤ MAX_FOLDER_STREAMS := by decide
  refine ⟨?_, fun props hprops => ?_, fun property => ?_, fun props hprops => ?_, fun property => ?_,
    fun inner power salt iv hsized hcount hsalt hiv => ⟨?_, ?_⟩,
    fun outside prepared knownSize folder chunks completed w w' hfilled h => hfilled.linesUp h⟩
  · exact @specs_parseBack [.Copy] (by simp [CoderSpec.Sized]) (by simp) hone
  · rw [encodeCoderInfoLzma_eq]
    exact @specs_parseBack [.Lzma props] (by simpa [CoderSpec.Sized] using hprops) (by simp) hone
  · rw [encodeCoderInfoLzma2_eq]
    exact @specs_parseBack [.Lzma2 property] (by simp [CoderSpec.Sized]) (by simp) hone
  · rw [encodeCoderInfoPpmd_eq]
    exact @specs_parseBack [.Ppmd props] (by simpa [CoderSpec.Sized] using hprops) (by simp) hone
  · rw [encodeCoderInfoBcjLzma2_eq]
    exact @specs_parseBack [.Lzma2 property, .Bcj] (by simp [CoderSpec.Sized]) (by simp)
      (show 2 ≤ MAX_FOLDER_STREAMS by decide)
  · exact aesThen_parsesBack hsized hcount (AesProps.length_lt ⟨power, salt, iv, hsalt, hiv, rfl⟩)
  · exact ⟨_, AesProperties.parse_encode power hsalt hiv, rfl, power_and, rfl, paddedIv_eq hiv⟩

/-- A cipher before LZMA2 and the x86 filter. -/
theorem folder_encoders_parse_back_encrypted :
    ∃ graph, ParsesBack (encodeCoderInfoAesThen [.Lzma2 24, .Bcj] (encodeAesProperties 19 [1, 2] [3, 4, 5]))
      [aesCoder (encodeAesProperties 19 [1, 2] [3, 4, 5]), (CoderSpec.Lzma2 24).coderInfo,
        CoderSpec.Bcj.coderInfo] graph := by
  obtain ⟨-, -, -, -, -, haes, -⟩ := folder_encoders_parse_back
  exact (haes [.Lzma2 24, .Bcj] 19 [1, 2] [3, 4, 5] (by simp [CoderSpec.Sized]) (by decide) (by decide)
    (by decide)).1

/-- A power beyond its six bits is not read back. -/
theorem power_beyond_bits : ∃ props, AesProperties.parse (encodeAesProperties 64 [] []) = .ok props ∧
    props.numCyclesPower ≠ 64 :=
  ⟨_, AesProperties.parse_encode 64 (by decide) (by decide), by decide⟩

end Write

end R7z
