import R7z.FolderGraph
import R7z.Order.Topological

/-! When the coders of a folder make up a graph, and what the view of the graph says then. -/

namespace R7z

open Wire

/-! What a folder's lists mean -/

/-- The coder has as many streams as its method says, or, when the method is unknown, as many as are
allowed at all. -/
structure CoderInfo.HasArity (coder : CoderInfo) : Prop where
  method : ∀ method, methodFromId coder.codecId.bytes = some method →
    (coder.numInStreams, coder.numOutStreams) = method.streamArity
  inputs : 1 ≤ coder.numInStreams.toNat ∧ coder.numInStreams.toNat ≤ MAX_FOLDER_STREAMS
  outputs : 1 ≤ coder.numOutStreams.toNat ∧ coder.numOutStreams.toNat ≤ MAX_FOLDER_STREAMS

namespace Folder

def totalInStreams (folder : Folder) : Nat :=
  (folder.coders.map fun c => c.numInStreams.toNat).sum

/-- The coder of each input, the inputs of all coders being numbered one after the other. -/
def inputOwners (folder : Folder) : List CoderIndex :=
  folder.coders.zipIdx.flatMap fun (coder, i) => List.replicate coder.numInStreams.toNat i

def outputOwners (folder : Folder) : List CoderIndex :=
  folder.coders.zipIdx.flatMap fun (coder, i) => List.replicate coder.numOutStreams.toNat i

def Feeds (folder : Folder) (c d : CoderIndex) : Prop :=
  ∃ pair ∈ folder.bindPairs, folder.outputOwners[pair.2.toNat]? = some c ∧
    folder.inputOwners[pair.1.toNat]? = some d

def freeInputs (folder : Folder) : List InputStreamIndex :=
  (List.range folder.totalInStreams).filter fun i => i ∉ folder.bindPairs.map fun pair => pair.1.toNat

structure ValidGraph (folder : Folder) : Prop where
  arity : ∀ coder ∈ folder.coders, coder.HasArity
  inputs : folder.totalInStreams ≤ MAX_FOLDER_STREAMS
  outputs : folder.totalOutStreams ≤ MAX_FOLDER_STREAMS
  pairs : folder.bindPairs.length + 1 = folder.totalOutStreams
  inRange : ∀ pair ∈ folder.bindPairs,
    pair.1.toNat < folder.totalInStreams ∧ pair.2.toNat < folder.totalOutStreams
  inputOnce : (folder.bindPairs.map fun pair => pair.1.toNat).Nodup
  outputOnce : (folder.bindPairs.map fun pair => pair.2.toNat).Nodup
  acyclic : Topological.Acyclic folder.Feeds
  packed : (folder.packedIndices.map UInt64.toNat).Perm folder.freeInputs ∨
    folder.packedIndices = [] ∧ folder.freeInputs.length = 1

/-- From the output along bind pairs, through any of the outputs of the coders on the way, to the
final output. -/
inductive OutputReaches (folder : Folder) (final : OutputStreamIndex) : OutputStreamIndex → Prop where
  | final : OutputReaches folder final final
  | step {output next : OutputStreamIndex} {coder : CoderIndex} (pair : UInt64 × UInt64)
      (hpair : pair ∈ folder.bindPairs) (houtput : pair.2.toNat = output)
      (hcoder : folder.inputOwners[pair.1.toNat]? = some coder)
      (hnext : folder.outputOwners[next]? = some coder) (hreaches : OutputReaches folder final next) :
      OutputReaches folder final output

end Folder

structure FolderGraph.Describes (graph : FolderGraph) (folder : Folder) : Prop where
  perm : graph.executionOrder.Perm (List.range folder.coders.length)
  ordered : Topological.Ordered folder.Feeds graph.executionOrder
  final_lt : graph.finalOutput < folder.totalOutStreams
  final_iff : ∀ output < folder.totalOutStreams,
    (∀ pair ∈ folder.bindPairs, pair.2.toNat ≠ output) ↔ output = graph.finalOutput
  reaches : ∀ output < folder.totalOutStreams, folder.OutputReaches graph.finalOutput output

/-! The owners of the streams -/

section
variable {α : Type}

theorem mem_copies (size : α → ℕ) {coders : List α} {k c : ℕ} :
    c ∈ (coders.zipIdx k).flatMap (fun p => List.replicate (size p.1) p.2) ↔
      ∃ coder, k ≤ c ∧ coders[c - k]? = some coder ∧ 0 < size coder := by
  induction coders generalizing k with
  | nil => simp
  | cons coder coders ih =>
    rw [List.zipIdx_cons, List.flatMap_cons, List.mem_append, ih, List.mem_replicate]
    constructor
    · rintro (⟨hsize, rfl⟩ | ⟨found, hle, hat, hsize⟩)
      · exact ⟨coder, le_rfl, by rw [Nat.sub_self]; rfl, Nat.pos_of_ne_zero hsize⟩
      · refine ⟨found, by omega, ?_, hsize⟩
        rw [show c - k = c - (k + 1) + 1 by omega, List.getElem?_cons_succ]
        exact hat
    · rintro ⟨found, hle, hat, hsize⟩
      rcases Nat.eq_or_lt_of_le hle with rfl | hlt
      · rw [Nat.sub_self] at hat
        obtain rfl : coder = found := Option.some.inj hat
        exact .inl ⟨hsize.ne', rfl⟩
      · rw [show c - k = c - (k + 1) + 1 by omega, List.getElem?_cons_succ] at hat
        exact .inr ⟨found, hlt, hat, hsize⟩

theorem length_copies (coders : List α) (size : α → ℕ) (k : ℕ) :
    ((coders.zipIdx k).flatMap fun p => List.replicate (size p.1) p.2).length =
      (coders.map size).sum := by
  induction coders generalizing k with
  | nil => rfl
  | cons coder coders ih =>
    rw [List.zipIdx_cons, List.flatMap_cons, List.length_append, ih, List.length_replicate,
      List.map_cons, List.sum_cons]

end

namespace Folder

variable (folder : Folder)

@[simp] theorem length_inputOwners : folder.inputOwners.length = folder.totalInStreams :=
  length_copies folder.coders (fun c => c.numInStreams.toNat) 0

@[simp] theorem length_outputOwners : folder.outputOwners.length = folder.totalOutStreams :=
  length_copies folder.coders (fun c => c.numOutStreams.toNat) 0

variable {folder} {c : CoderIndex}

theorem mem_inputOwners (h : c ∈ folder.inputOwners) : c < folder.coders.length := by
  obtain ⟨coder, -, hat, -⟩ := (mem_copies fun c : CoderInfo => c.numInStreams.toNat).mp h
  exact (List.getElem?_eq_some_iff.mp hat).1

theorem mem_outputOwners (h : c ∈ folder.outputOwners) : c < folder.coders.length := by
  obtain ⟨coder, -, hat, -⟩ := (mem_copies fun c : CoderInfo => c.numOutStreams.toNat).mp h
  exact (List.getElem?_eq_some_iff.mp hat).1

end Folder

theorem StreamArity.tryFrom_eq_ok {coder : CoderInfo} {arity : StreamArity} :
    StreamArity.tryFrom coder = .ok arity ↔ coder.HasArity ∧
      arity = ⟨coder.numInStreams.toNat, coder.numOutStreams.toNat⟩ := by
  have hchecked : (if 1 ≤ coder.numInStreams.toNat ∧ coder.numInStreams.toNat ≤ MAX_FOLDER_STREAMS ∧
        1 ≤ coder.numOutStreams.toNat ∧ coder.numOutStreams.toNat ≤ MAX_FOLDER_STREAMS then
      (.ok ⟨coder.numInStreams.toNat, coder.numOutStreams.toNat⟩ : Except R7zError StreamArity)
    else .error .invalidFolderGraph) = .ok arity ↔
      ((1 ≤ coder.numInStreams.toNat ∧ coder.numInStreams.toNat ≤ MAX_FOLDER_STREAMS) ∧
        1 ≤ coder.numOutStreams.toNat ∧ coder.numOutStreams.toNat ≤ MAX_FOLDER_STREAMS) ∧
      arity = ⟨coder.numInStreams.toNat, coder.numOutStreams.toNat⟩ := by
    split
    · rename_i hlimits
      obtain ⟨hin₁, hin₂, hout⟩ := hlimits
      exact ⟨fun h => ⟨⟨⟨hin₁, hin₂⟩, hout⟩, (Except.ok.inj h).symm⟩, fun h => by rw [h.2]⟩
    · rename_i hlimits
      constructor
      · intro h
        cases h
      · exact fun h => absurd ⟨h.1.1.1, h.1.1.2, h.1.2⟩ hlimits
  unfold StreamArity.tryFrom
  cases hmethod : methodFromId coder.codecId.bytes with
  | none =>
    dsimp only [Option.map]
    rw [hchecked]
    constructor
    · rintro ⟨⟨hin, hout⟩, harity⟩
      refine ⟨⟨fun method h => ?_, hin, hout⟩, harity⟩
      rw [hmethod] at h
      cases h
    · exact fun ⟨h, harity⟩ => ⟨⟨h.inputs, h.outputs⟩, harity⟩
  | some method =>
    dsimp only [Option.map]
    split
    · rename_i hne
      constructor
      · intro h
        cases h
      · exact fun ⟨h, _⟩ => absurd (h.method method hmethod) hne
    · rename_i heq
      rw [hchecked]
      constructor
      · rintro ⟨⟨hin, hout⟩, harity⟩
        refine ⟨⟨fun other h => ?_, hin, hout⟩, harity⟩
        rw [hmethod] at h
        rw [← Option.some.inj h]
        exact not_not.mp heq
      · exact fun ⟨h, harity⟩ => ⟨⟨h.inputs, h.outputs⟩, harity⟩

namespace StreamOwners

def arityOf (coder : CoderInfo) : StreamArity := ⟨coder.numInStreams.toNat, coder.numOutStreams.toNat⟩

theorem mapM_arities : ∀ {coders : List CoderInfo} {arities : List StreamArity},
    coders.mapM StreamArity.tryFrom = .ok arities ↔
      (∀ coder ∈ coders, coder.HasArity) ∧ arities = coders.map arityOf
  | [], arities => by
    rw [List.mapM_nil]
    constructor
    · intro h
      exact ⟨fun _ hc => (List.not_mem_nil hc).elim, (Except.ok.inj h).symm⟩
    · rintro ⟨-, rfl⟩
      rfl
  | coder :: coders, arities => by
    rw [List.mapM_cons, except_bind_eq_ok]
    constructor
    · rintro ⟨arity, harity, h⟩
      obtain ⟨rest, hrest, h⟩ := except_bind_eq_ok.mp h
      obtain ⟨hcoder, rfl⟩ := StreamArity.tryFrom_eq_ok.mp harity
      obtain ⟨hcoders, rfl⟩ := mapM_arities.mp hrest
      refine ⟨fun c hc => ?_, (Except.ok.inj h).symm⟩
      rcases List.mem_cons.mp hc with rfl | hc
      · exact hcoder
      · exact hcoders c hc
    · rintro ⟨hall, rfl⟩
      refine ⟨arityOf coder, StreamArity.tryFrom_eq_ok.mpr ⟨hall coder (List.mem_cons_self ..), rfl⟩, ?_⟩
      exact except_bind_eq_ok.mpr ⟨coders.map arityOf,
        mapM_arities.mpr ⟨fun c hc => hall c (List.mem_cons_of_mem _ hc), rfl⟩, rfl⟩

theorem addArity_iff : ∀ {arities : List StreamArity} {totals : ℕ × ℕ},
    totals.1 ≤ MAX_FOLDER_STREAMS → totals.2 ≤ MAX_FOLDER_STREAMS →
    ((∃ final, arities.foldlM addArity totals = .ok final) ↔
      totals.1 + (arities.map StreamArity.inputs).sum ≤ MAX_FOLDER_STREAMS ∧
        totals.2 + (arities.map StreamArity.outputs).sum ≤ MAX_FOLDER_STREAMS)
  | [], totals, hin, hout => ⟨fun _ => ⟨hin, hout⟩, fun _ => ⟨totals, rfl⟩⟩
  | arity :: arities, totals, hin, hout => by
    rw [List.foldlM_cons, List.map_cons, List.map_cons, List.sum_cons, List.sum_cons, ← Nat.add_assoc,
      ← Nat.add_assoc]
    by_cases hfits : totals.1 + arity.inputs ≤ MAX_FOLDER_STREAMS ∧
        totals.2 + arity.outputs ≤ MAX_FOLDER_STREAMS
    · have hstep : addArity totals arity = .ok (totals.1 + arity.inputs, totals.2 + arity.outputs) :=
        if_pos hfits
      rw [hstep]
      exact @addArity_iff arities (totals.1 + arity.inputs, totals.2 + arity.outputs) hfits.1 hfits.2
    · have hstep : addArity totals arity = .error .invalidFolderGraph := if_neg hfits
      rw [hstep]
      constructor
      · rintro ⟨final, h⟩
        cases h
      · intro h
        exact absurd ⟨by omega, by omega⟩ hfits

theorem fromCoders_eq_ok {folder : Folder} {owners : StreamOwners} :
    fromCoders folder.coders = .ok owners ↔ (∀ coder ∈ folder.coders, coder.HasArity) ∧
      folder.totalInStreams ≤ MAX_FOLDER_STREAMS ∧ folder.totalOutStreams ≤ MAX_FOLDER_STREAMS ∧
      owners = ⟨folder.inputOwners, folder.outputOwners⟩ := by
  have hin : ((folder.coders.map arityOf).zipIdx.flatMap fun owner =>
      List.replicate owner.1.inputs owner.2) = folder.inputOwners := by
    rw [List.zipIdx_map, List.flatMap_map]
    rfl
  have hout : ((folder.coders.map arityOf).zipIdx.flatMap fun owner =>
      List.replicate owner.1.outputs owner.2) = folder.outputOwners := by
    rw [List.zipIdx_map, List.flatMap_map]
    rfl
  have hlimits : (∃ totals, (folder.coders.map arityOf).foldlM addArity (0, 0) = .ok totals) ↔
      folder.totalInStreams ≤ MAX_FOLDER_STREAMS ∧ folder.totalOutStreams ≤ MAX_FOLDER_STREAMS := by
    rw [addArity_iff (Nat.zero_le _) (Nat.zero_le _), Nat.zero_add, Nat.zero_add, List.map_map,
      List.map_map]
    rfl
  unfold fromCoders
  rw [except_bind_eq_ok]
  constructor
  · rintro ⟨arities, harities, h⟩
    obtain ⟨hall, rfl⟩ := mapM_arities.mp harities
    obtain ⟨totals, htotals, h⟩ := except_bind_eq_ok.mp h
    obtain ⟨hinputs, houtputs⟩ := hlimits.mp ⟨totals, htotals⟩
    rw [hin, hout] at h
    exact ⟨hall, hinputs, houtputs, (Except.ok.inj h).symm⟩
  · rintro ⟨hall, hinputs, houtputs, rfl⟩
    obtain ⟨totals, htotals⟩ := hlimits.mpr ⟨hinputs, houtputs⟩
    refine ⟨folder.coders.map arityOf, mapM_arities.mpr ⟨hall, rfl⟩, ?_⟩
    refine except_bind_eq_ok.mpr ⟨totals, htotals, ?_⟩
    rw [hin, hout]
    rfl

/-- The coder an output belongs to that is bound, and the coder of the input it is bound to. -/
def source (owners : StreamOwners) (pair : UInt64 × UInt64) : CoderIndex :=
  owners.outputs.getD pair.2.toNat 0

def target (owners : StreamOwners) (pair : UInt64 × UInt64) : CoderIndex :=
  owners.inputs.getD pair.1.toNat 0

end StreamOwners

/-! Binding -/

theorem orInvalid_eq_ok {α : Type} {o : Option α} {a : α} : orInvalid o = .ok a ↔ o = some a := by
  cases o with
  | none =>
    constructor
    · intro h
      cases h
    · intro h
      cases h
  | some b => exact ⟨fun h => congrArg some (Except.ok.inj h), fun h => congrArg _ (Option.some.inj h)⟩

theorem indexFromRaw_eq_ok {raw : UInt64} {total i : ℕ} :
    indexFromRaw raw total = .ok i ↔ raw.toNat < total ∧ raw.toNat = i := by
  unfold indexFromRaw
  split
  · rename_i hlt
    exact ⟨fun h => ⟨hlt, Except.ok.inj h⟩, fun h => congrArg _ h.2⟩
  · rename_i hge
    constructor
    · intro h
      cases h
    · exact fun h => absurd h.1 hge

theorem exists_related {α β : Type} {R : α → β → Prop} {l : List α} {m : List β}
    (h : List.Forall₂ R l m) {a : α} (ha : a ∈ l) : ∃ b ∈ m, R a b := by
  obtain ⟨k, hk, rfl⟩ := List.mem_iff_getElem.mp ha
  have hk' : k < m.length := h.length_eq ▸ hk
  exact ⟨m[k], List.getElem_mem hk', h.get hk hk'⟩

section
variable {α : Type}

theorem getElem?_map_range (f : ℕ → α) {n i : ℕ} (hi : i < n) :
    ((List.range n).map f)[i]? = some (f i) := by
  rw [List.getElem?_map, List.getElem?_range hi]
  rfl

theorem set_map_range {f g : ℕ → α} {n i : ℕ} {a : α} (ha : a = g i)
    (hne : ∀ j, j ≠ i → g j = f j) : ((List.range n).map f).set i a = (List.range n).map g := by
  apply List.ext_getElem
  · simp
  · intro j hj hj'
    rw [List.getElem_set]
    split
    · rename_i hij
      subst hij
      simp [ha]
    · rename_i hij
      simp [hne j (Ne.symm hij)]

end

namespace Bindings

def ofPairs (owners : StreamOwners) (n : ℕ) (pairs : List (UInt64 × UInt64)) : Bindings where
  boundInputs := (List.range owners.inputs.length).map fun i =>
    decide (i ∈ pairs.map fun pair => pair.1.toNat)
  boundOutputs := (List.range owners.outputs.length).map fun i =>
    decide (i ∈ pairs.map fun pair => pair.2.toNat)
  inputSources := (List.range owners.inputs.length).map fun i =>
    (pairs.find? fun pair => pair.1.toNat = i).map fun pair => pair.2.toNat
  edges := (List.range n).map fun u =>
    (pairs.filter fun pair => owners.source pair = u).map owners.target
  indegree := (List.range n).map fun v => pairs.countP fun pair => owners.target pair = v

theorem unbound_eq (owners : StreamOwners) (n : ℕ) : unbound owners n = ofPairs owners n [] := by
  unfold unbound ofPairs
  simp [List.map_const']

structure Bindable (owners : StreamOwners) (bound : List (UInt64 × UInt64)) (pair : UInt64 × UInt64) :
    Prop where
  input_lt : pair.1.toNat < owners.inputs.length
  output_lt : pair.2.toNat < owners.outputs.length
  input_free : pair.1.toNat ∉ bound.map fun pair => pair.1.toNat
  output_free : pair.2.toNat ∉ bound.map fun pair => pair.2.toNat
  ne : owners.source pair ≠ owners.target pair

section
variable {owners : StreamOwners} {n : ℕ} {bound pairs : List (UInt64 × UInt64)} {pair : UInt64 × UInt64}

theorem source_of_lt (h : pair.2.toNat < owners.outputs.length) :
    owners.outputs[pair.2.toNat]? = some (owners.source pair) := by
  unfold StreamOwners.source
  rw [List.getD_eq_getElem _ _ h, List.getElem?_eq_getElem h]

theorem target_of_lt (h : pair.1.toNat < owners.inputs.length) :
    owners.inputs[pair.1.toNat]? = some (owners.target pair) := by
  unfold StreamOwners.target
  rw [List.getD_eq_getElem _ _ h, List.getElem?_eq_getElem h]

theorem bindable_of_bind {after : Bindings} (h : bind owners (ofPairs owners n bound) pair = .ok after) :
    Bindable owners bound pair := by
  unfold bind at h
  obtain ⟨input, hinput, h⟩ := except_bind_eq_ok.mp h
  obtain ⟨output, houtput, h⟩ := except_bind_eq_ok.mp h
  obtain ⟨inputBound, hinputBound, h⟩ := except_bind_eq_ok.mp h
  obtain ⟨outputBound, houtputBound, h⟩ := except_bind_eq_ok.mp h
  obtain ⟨hin, rfl⟩ := indexFromRaw_eq_ok.mp hinput
  obtain ⟨hout, rfl⟩ := indexFromRaw_eq_ok.mp houtput
  have hinputBound := orInvalid_eq_ok.mp hinputBound
  have houtputBound := orInvalid_eq_ok.mp houtputBound
  unfold ofPairs at hinputBound houtputBound
  rw [getElem?_map_range _ hin] at hinputBound
  rw [getElem?_map_range _ hout] at houtputBound
  split at h
  · cases h
  rename_i hfree
  rw [← Option.some.inj hinputBound, ← Option.some.inj houtputBound, Bool.or_eq_true, not_or] at hfree
  obtain ⟨source, hsource, h⟩ := except_bind_eq_ok.mp h
  obtain ⟨target, htarget, h⟩ := except_bind_eq_ok.mp h
  have hsource := orInvalid_eq_ok.mp hsource
  have htarget := orInvalid_eq_ok.mp htarget
  rw [source_of_lt hout] at hsource
  rw [target_of_lt hin] at htarget
  split at h
  · cases h
  rename_i hne
  rw [← Option.some.inj hsource, ← Option.some.inj htarget] at hne
  exact ⟨hin, hout, fun hmem => hfree.1 (decide_eq_true hmem), fun hmem => hfree.2 (decide_eq_true hmem),
    hne⟩

theorem bind_of_bindable (hinputs : ∀ c ∈ owners.inputs, c < n) (houtputs : ∀ c ∈ owners.outputs, c < n)
    (h : Bindable owners bound pair) :
    bind owners (ofPairs owners n bound) pair = .ok (ofPairs owners n (bound ++ [pair])) := by
  have hsource := source_of_lt h.output_lt
  have htarget := target_of_lt h.input_lt
  have hsource_lt : owners.source pair < n := houtputs _ (List.mem_of_getElem? hsource)
  have htarget_lt : owners.target pair < n := hinputs _ (List.mem_of_getElem? htarget)
  have hinputBound : (ofPairs owners n bound).boundInputs[pair.1.toNat]? = some false := by
    unfold ofPairs
    rw [getElem?_map_range _ h.input_lt, decide_eq_false h.input_free]
  have houtputBound : (ofPairs owners n bound).boundOutputs[pair.2.toNat]? = some false := by
    unfold ofPairs
    rw [getElem?_map_range _ h.output_lt, decide_eq_false h.output_free]
  have hedges : (ofPairs owners n bound).edges[owners.source pair]? =
      some ((bound.filter fun p => owners.source p = owners.source pair).map owners.target) := by
    unfold ofPairs
    rw [getElem?_map_range _ hsource_lt]
  have hdegree : (ofPairs owners n bound).indegree[owners.target pair]? =
      some (bound.countP fun p => owners.target p = owners.target pair) := by
    unfold ofPairs
    rw [getElem?_map_range _ htarget_lt]
  -- every check of `bind` is passed
  unfold bind
  refine except_bind_eq_ok.mpr ⟨_, indexFromRaw_eq_ok.mpr ⟨h.input_lt, rfl⟩, ?_⟩
  refine except_bind_eq_ok.mpr ⟨_, indexFromRaw_eq_ok.mpr ⟨h.output_lt, rfl⟩, ?_⟩
  refine except_bind_eq_ok.mpr ⟨_, orInvalid_eq_ok.mpr hinputBound, ?_⟩
  refine except_bind_eq_ok.mpr ⟨_, orInvalid_eq_ok.mpr houtputBound, ?_⟩
  rw [if_neg (by decide)]
  refine except_bind_eq_ok.mpr ⟨_, orInvalid_eq_ok.mpr hsource, ?_⟩
  refine except_bind_eq_ok.mpr ⟨_, orInvalid_eq_ok.mpr htarget, ?_⟩
  rw [if_neg h.ne]
  refine except_bind_eq_ok.mpr ⟨_, orInvalid_eq_ok.mpr hedges, ?_⟩
  refine except_bind_eq_ok.mpr ⟨_, orInvalid_eq_ok.mpr hdegree, ?_⟩
  -- and each table changes at the place of the pair only
  apply congrArg Except.ok
  unfold ofPairs
  rw [Bindings.mk.injEq]
  refine ⟨?_, ?_, ?_, ?_, ?_⟩
  · apply set_map_range
    · simp
    · intro j hj
      simp [hj]
  · apply set_map_range
    · simp
    · intro j hj
      simp [hj]
  · apply set_map_range
    · have hnone : bound.find? (fun p => p.1.toNat = pair.1.toNat) = none := by
        rw [List.find?_eq_none]
        intro p hp heq
        exact h.input_free (List.mem_map.mpr ⟨p, hp, of_decide_eq_true heq⟩)
      simp [List.find?_append, hnone]
    · intro j hj
      have hne : ¬pair.1.toNat = j := fun heq => hj heq.symm
      simp [List.find?_append, hne]
  · apply set_map_range
    · simp
    · intro j hj
      have hne : ¬owners.source pair = j := fun heq => hj heq.symm
      simp [hne]
  · apply set_map_range
    · simp
    · intro j hj
      have hne : ¬owners.target pair = j := fun heq => hj heq.symm
      simp [hne]

theorem foldlM_bind (hinputs : ∀ c ∈ owners.inputs, c < n) (houtputs : ∀ c ∈ owners.outputs, c < n)
    {after : Bindings} : ∀ {pairs bound : List (UInt64 × UInt64)},
    (bound.map fun pair => pair.1.toNat).Nodup → (bound.map fun pair => pair.2.toNat).Nodup →
    (pairs.foldlM (bind owners) (ofPairs owners n bound) = .ok after ↔
      (∀ pair ∈ pairs, pair.1.toNat < owners.inputs.length ∧ pair.2.toNat < owners.outputs.length ∧
        owners.source pair ≠ owners.target pair) ∧
      ((bound ++ pairs).map fun pair => pair.1.toNat).Nodup ∧
      ((bound ++ pairs).map fun pair => pair.2.toNat).Nodup ∧
      after = ofPairs owners n (bound ++ pairs)) := by
  intro pairs
  induction pairs with
  | nil =>
    intro bound hin hout
    rw [List.append_nil, List.foldlM_nil]
    constructor
    · exact fun h => ⟨fun _ hp => (List.not_mem_nil hp).elim, hin, hout, (Except.ok.inj h).symm⟩
    · rintro ⟨-, -, -, rfl⟩
      rfl
  | cons pair pairs ih =>
    intro bound hin hout
    have hassoc : bound ++ pair :: pairs = bound ++ [pair] ++ pairs := by simp
    -- a pair that is free on both sides keeps both lists without a double
    have hsnoc : ∀ f : UInt64 × UInt64 → ℕ, (bound.map f).Nodup → f pair ∉ bound.map f →
        ((bound ++ [pair]).map f).Nodup := by
      intro f hf hnot
      rw [List.map_append, List.nodup_append]
      refine ⟨hf, List.nodup_singleton _, fun a ha b hb hab => hnot ?_⟩
      rw [← List.mem_singleton.mp hb, ← hab]
      exact ha
    rw [List.foldlM_cons, except_bind_eq_ok]
    constructor
    · rintro ⟨next, hbind, hrest⟩
      have hbindable := bindable_of_bind hbind
      rw [bind_of_bindable hinputs houtputs hbindable] at hbind
      rw [← Except.ok.inj hbind] at hrest
      obtain ⟨hpairs, hins, houts, hafter⟩ := (ih (hsnoc _ hin hbindable.input_free)
        (hsnoc _ hout hbindable.output_free)).mp hrest
      rw [hassoc]
      refine ⟨fun p hp => ?_, hins, houts, hafter⟩
      rcases List.mem_cons.mp hp with rfl | hp
      · exact ⟨hbindable.input_lt, hbindable.output_lt, hbindable.ne⟩
      · exact hpairs p hp
    · rintro ⟨hpairs, hins, houts, hafter⟩
      obtain ⟨hin_lt, hout_lt, hne⟩ := hpairs pair (List.mem_cons_self ..)
      have hfree : ∀ f : UInt64 × UInt64 → ℕ, ((bound ++ pair :: pairs).map f).Nodup →
          f pair ∉ bound.map f := by
        intro f hf hmem
        rw [List.map_append, List.map_cons] at hf
        exact List.disjoint_of_nodup_append hf hmem (List.mem_cons_self ..)
      have hbindable : Bindable owners bound pair := ⟨hin_lt, hout_lt, hfree _ hins, hfree _ houts, hne⟩
      refine ⟨_, bind_of_bindable hinputs houtputs hbindable, ?_⟩
      rw [hassoc] at hins houts hafter
      exact (ih (hsnoc _ hin hbindable.input_free) (hsnoc _ hout hbindable.output_free)).mpr
        ⟨fun p hp => hpairs p (List.mem_cons_of_mem _ hp), hins, houts, hafter⟩

end

/-! What is left unbound -/

theorem unboundStreams_map (n : ℕ) (bound : List ℕ) :
    unboundStreams ((List.range n).map fun i => decide (i ∈ bound)) =
      (List.range n).filter fun i => i ∉ bound := by
  unfold unboundStreams
  rw [List.length_map, List.length_range]
  apply List.filter_congr
  intro i hi
  rw [getElem?_map_range _ (List.mem_range.mp hi)]
  by_cases hmem : i ∈ bound
  · simp [hmem]
  · simp [hmem]

theorem length_free {n : ℕ} {bound : List ℕ} (hnodup : bound.Nodup) (hlt : ∀ i ∈ bound, i < n) :
    bound.length + ((List.range n).filter fun i => i ∉ bound).length = n := by
  have hperm : (List.range n).Perm (bound ++ (List.range n).filter fun i => i ∉ bound) := by
    apply (List.perm_ext_iff_of_nodup List.nodup_range ?_).mpr
    · intro i
      rw [List.mem_append, List.mem_filter, List.mem_range, decide_eq_true_eq]
      constructor
      · intro hi
        by_cases hmem : i ∈ bound
        · exact .inl hmem
        · exact .inr ⟨hi, hmem⟩
      · rintro (hi | hi)
        · exact hlt i hi
        · exact hi.1
    · refine List.nodup_append.mpr ⟨hnodup, List.nodup_range.filter _, fun a ha b hb hab => ?_⟩
      exact of_decide_eq_true (List.mem_filter.mp hb).2 (hab ▸ ha)
  rw [← List.length_append, ← hperm.length_eq, List.length_range]

theorem finalOutput_ofPairs {owners : StreamOwners} {n : ℕ} {pairs : List (UInt64 × UInt64)}
    (hnodup : (pairs.map fun pair => pair.2.toNat).Nodup)
    (hlt : ∀ pair ∈ pairs, pair.2.toNat < owners.outputs.length)
    (hcount : pairs.length + 1 = owners.outputs.length) : ∃ output,
    (ofPairs owners n pairs).finalOutput = .ok output ∧
      (List.range owners.outputs.length).filter (· ∉ pairs.map fun pair => pair.2.toNat) = [output] := by
  have hlen := length_free hnodup fun i hi => by
    obtain ⟨pair, hpair, rfl⟩ := List.mem_map.mp hi
    exact hlt pair hpair
  rw [List.length_map] at hlen
  obtain ⟨output, houtput⟩ := List.length_eq_one_iff.mp (show ((List.range owners.outputs.length).filter
    (· ∉ pairs.map fun pair => pair.2.toNat)).length = 1 by omega)
  refine ⟨output, ?_, houtput⟩
  unfold finalOutput
  rw [show unboundStreams (ofPairs owners n pairs).boundOutputs = [output] from
    (unboundStreams_map _ _).trans houtput]

theorem explicitInputs_eq_ok {bindings : Bindings} : ∀ {indices : List UInt64} {seen inputs : List ℕ},
    seen.Nodup → (bindings.explicitInputs indices seen = .ok inputs ↔
      inputs = seen ++ indices.map UInt64.toNat ∧
      (∀ raw ∈ indices, bindings.boundInputs[raw.toNat]? = some false) ∧
      (seen ++ indices.map UInt64.toNat).Nodup)
  | [], seen, inputs, hseen => by
    unfold explicitInputs
    rw [List.map_nil, List.append_nil]
    exact ⟨fun h => ⟨(Except.ok.inj h).symm, fun _ hr => (List.not_mem_nil hr).elim, hseen⟩,
      fun h => by rw [h.1]⟩
  | raw :: indices, seen, inputs, hseen => by
    have hassoc : seen ++ (raw :: indices).map UInt64.toNat =
        seen ++ [raw.toNat] ++ indices.map UInt64.toNat := by simp
    have hsnoc : raw.toNat ∉ seen → (seen ++ [raw.toNat]).Nodup := fun hnot =>
      List.nodup_append.mpr ⟨hseen, List.nodup_singleton _, fun a ha b hb hab =>
        hnot (List.mem_singleton.mp hb ▸ hab ▸ ha)⟩
    unfold explicitInputs
    rw [except_bind_eq_ok]
    constructor
    · rintro ⟨input, hinput, h⟩
      obtain ⟨-, rfl⟩ := indexFromRaw_eq_ok.mp hinput
      split at h
      · rename_i hfree
        obtain ⟨hinputs, hall, hnodup⟩ := (explicitInputs_eq_ok (hsnoc hfree.2)).mp h
        rw [hassoc]
        refine ⟨hinputs, fun r hr => ?_, hnodup⟩
        rcases List.mem_cons.mp hr with rfl | hr
        · exact hfree.1
        · exact hall r hr
      · cases h
    · rintro ⟨hinputs, hall, hnodup⟩
      have hfree := hall raw (List.mem_cons_self ..)
      have hnot : raw.toNat ∉ seen := by
        intro hmem
        exact List.disjoint_of_nodup_append hnodup hmem (List.mem_cons_self ..)
      refine ⟨raw.toNat, indexFromRaw_eq_ok.mpr ⟨(List.getElem?_eq_some_iff.mp hfree).1, rfl⟩, ?_⟩
      rw [if_pos ⟨hfree, hnot⟩]
      rw [hassoc] at hinputs hnodup
      exact (explicitInputs_eq_ok (hsnoc hnot)).mpr
        ⟨hinputs, fun r hr => hall r (List.mem_cons_of_mem _ hr), hnodup⟩

theorem packedInputs_ofPairs {owners : StreamOwners} {n : ℕ} {pairs : List (UInt64 × UInt64)}
    {explicit : List UInt64} {free inputs : List ℕ}
    (hfree : free = (List.range owners.inputs.length).filter (· ∉ pairs.map fun pair => pair.1.toNat)) :
    (ofPairs owners n pairs).packedInputs explicit = .ok inputs ↔
      explicit = [] ∧ inputs = free ∧ free.length = 1 ∨
      explicit ≠ [] ∧ inputs = explicit.map UInt64.toNat ∧ inputs.Perm free := by
  have hunbound : unboundStreams (ofPairs owners n pairs).boundInputs = free := by
    rw [hfree]
    exact unboundStreams_map _ _
  have hbound : ∀ raw : UInt64, (ofPairs owners n pairs).boundInputs[raw.toNat]? = some false ↔
      raw.toNat ∈ free := by
    intro raw
    rw [hfree, List.mem_filter, List.mem_range, decide_eq_true_eq]
    unfold ofPairs
    by_cases hlt : raw.toNat < owners.inputs.length
    · rw [getElem?_map_range _ hlt, Option.some.injEq, decide_eq_false_iff_not]
      exact ⟨fun h => ⟨hlt, h⟩, fun h => h.2⟩
    · rw [List.getElem?_eq_none (by simpa using hlt)]
      constructor
      · intro h
        cases h
      · exact fun h => absurd h.1 hlt
  have hnodup : free.Nodup := by
    rw [hfree]
    exact List.nodup_range.filter _
  -- without a list there must be one free input; a list must name all of them, each once
  unfold packedInputs
  rw [hunbound]
  cases explicit with
  | nil =>
    dsimp only
    constructor
    · intro h
      split at h
      · exact .inl ⟨rfl, (Except.ok.inj h).symm, rfl⟩
      · cases h
    · rintro (⟨-, rfl, hlen⟩ | ⟨hne, -⟩)
      · obtain ⟨input, rfl⟩ := List.length_eq_one_iff.mp hlen
        rfl
      · exact absurd rfl hne
  | cons raw indices =>
    dsimp only
    split
    · rename_i hlen
      rw [explicitInputs_eq_ok List.nodup_nil, List.nil_append]
      constructor
      · rintro ⟨hinputs, hall, hdistinct⟩
        refine .inr ⟨List.cons_ne_nil _ _, hinputs, ?_⟩
        rw [hinputs]
        have hsub : (raw :: indices).map UInt64.toNat ⊆ free := by
          intro i hi
          obtain ⟨r, hr, rfl⟩ := List.mem_map.mp hi
          exact (hbound r).mp (hall r hr)
        exact (List.subperm_of_subset hdistinct hsub).perm_of_length_le (by rw [List.length_map, hlen])
      · rintro (⟨hnil, -⟩ | ⟨-, hinputs, hperm⟩)
        · cases hnil
        · rw [hinputs] at hperm
          refine ⟨hinputs, fun r hr => ?_, hperm.nodup_iff.mpr hnodup⟩
          exact (hbound r).mpr (hperm.mem_iff.mp (List.mem_map_of_mem hr))
    · rename_i hlen
      constructor
      · intro h
        cases h
      · rintro (⟨hnil, -⟩ | ⟨-, hinputs, hperm⟩)
        · cases hnil
        · rw [hinputs] at hperm
          exact absurd (by rw [← hperm.length_eq, List.length_map]) hlen

/-! The execution order -/

open Topological

theorem release_spec : ∀ {nexts ready : List CoderIndex} {indegree : List ℕ},
    (∀ v, nexts.count v ≤ indegree.getD v 0) → ∃ degrees new,
      release indegree ready nexts = .ok (degrees, ready ++ new) ∧
      degrees.length = indegree.length ∧
      (∀ v, degrees.getD v 0 = indegree.getD v 0 - nexts.count v) ∧ new.Nodup ∧
      ∀ v, v ∈ new ↔ v < indegree.length ∧ 0 < indegree.getD v 0 ∧ degrees.getD v 0 = 0
  | [], ready, indegree, _ => by
    refine ⟨indegree, [], by rw [List.append_nil]; rfl, rfl, fun v => rfl, List.nodup_nil, fun v => ?_⟩
    constructor
    · exact fun hv => (List.not_mem_nil hv).elim
    · exact fun hv => absurd hv.2.2 hv.2.1.ne'
  | next :: nexts, ready, indegree, h => by
    have hnext := h next
    rw [List.count_cons_self] at hnext
    have hlt : next < indegree.length := by
      by_contra hge
      rw [List.getD_eq_default _ _ (not_lt.mp hge)] at hnext
      exact Nat.not_succ_le_zero _ hnext
    have hat : indegree[next]? = some (indegree.getD next 0) := by
      rw [List.getD_eq_getElem _ _ hlt, List.getElem?_eq_getElem hlt]
    generalize hdegree : indegree.getD next 0 = degree at hnext hat
    -- the edge to `next` is taken away
    have hset : ∀ v, (indegree.set next (degree - 1)).getD v 0 =
        if v = next then degree - 1 else indegree.getD v 0 := by
      intro v
      rw [List.getD_eq_getElem?_getD, List.getElem?_set]
      by_cases hv : v = next
      · rw [if_pos hv.symm, if_pos hlt, if_pos hv]
        rfl
      · rw [if_neg (Ne.symm hv), if_neg hv, List.getD_eq_getElem?_getD]
    -- so the other edges still have their degrees
    have hrest : ∀ v, nexts.count v ≤ (indegree.set next (degree - 1)).getD v 0 := by
      intro v
      rw [hset]
      split
      · rename_i hv
        rw [hv]
        exact Nat.le_sub_one_of_lt hnext
      · rename_i hv
        have hv' := h v
        rwa [List.count_cons_of_ne (Ne.symm hv)] at hv'
    obtain ⟨degrees, new, hrun, hlen, hdegrees, hnodup, hmem⟩ :=
      @release_spec nexts (if degree = 1 then ready ++ [next] else ready) _ hrest
    rw [List.length_set] at hlen hmem
    have hall : ∀ v, degrees.getD v 0 = indegree.getD v 0 - (next :: nexts).count v := by
      intro v
      rw [hdegrees, hset]
      split
      · rename_i hv
        rw [hv, List.count_cons_self, hdegree]
        omega
      · rename_i hv
        rw [List.count_cons_of_ne (Ne.symm hv)]
    refine ⟨degrees, (if degree = 1 then [next] else []) ++ new, ?_, hlen, hall, ?_, ?_⟩
    · unfold release
      refine except_bind_eq_ok.mpr ⟨degree, orInvalid_eq_ok.mpr hat, ?_⟩
      rw [if_neg (by omega), hrun]
      split
      · rw [List.append_assoc]
      · rfl
    · split
      · rename_i hone
        refine List.nodup_append.mpr ⟨List.nodup_singleton _, hnodup, fun a ha b hb hab => ?_⟩
        have hpos := ((hmem b).mp hb).2.1
        rw [hset, if_pos (hab ▸ List.mem_singleton.mp ha), hone] at hpos
        exact Nat.lt_irrefl 0 hpos
      · exact hnodup
    · intro v
      rw [List.mem_append, hmem, hset]
      have hv := hdegrees v
      rw [hset] at hv
      by_cases heq : v = next
      · subst heq
        rw [if_pos rfl] at hv ⊢
        by_cases hone : degree = 1
        · simp only [hone, if_true, List.mem_singleton, true_or, true_iff]
          refine ⟨hlt, by omega, ?_⟩
          rw [hv, hone]
          omega
        · simp only [hone, if_false, List.not_mem_nil, false_or, hdegree]
          constructor
          · exact fun ⟨hl, hpos, hzero⟩ => ⟨hl, by omega, hzero⟩
          · exact fun ⟨hl, hpos, hzero⟩ => ⟨hl, by omega, hzero⟩
      · rw [if_neg heq]
        have hnot : v ∉ (if degree = 1 then [next] else []) := by
          split
          · exact fun hmem => heq (List.mem_singleton.mp hmem)
          · exact List.not_mem_nil
        exact ⟨fun hv => hv.resolve_left hnot, .inr⟩

/-- The search comes to an end with nothing left to take. -/
theorem runOrder_spec {edges : List (List CoderIndex)} {E : ℕ → List ℕ} {n : ℕ}
    (hedges : ∀ u < n, edges[u]? = some (E u)) (hlt : ∀ u < n, ∀ v ∈ E u, v < n) :
    ∀ {turns : ℕ} {indegree : List ℕ} {ready order : List CoderIndex}, indegree.length = n →
      Frontier E n (fun v => indegree.getD v 0) ready order → turns + order.length = n →
      ∃ final degree, runOrder edges turns indegree ready order = .ok final ∧
        Frontier E n degree [] final := by
  intro turns
  induction turns with
  | zero =>
    intro indegree ready order hlen h hturns
    have hle := h.length_le
    rw [List.length_append] at hle
    have hready : ready = [] := List.eq_nil_of_length_eq_zero (by omega)
    subst hready
    exact ⟨order, _, by unfold runOrder; rfl, h⟩
  | succ turns ih =>
    intro indegree ready order hlen h hturns
    rcases List.eq_nil_or_concat ready with rfl | ⟨rest, node, hready⟩
    · exact ⟨order, _, by unfold runOrder; rfl, h⟩
    rw [List.concat_eq_append] at hready
    subst hready
    have hcount : ∀ v, (E node).count v ≤ indegree.getD v 0 := by
      intro v
      by_cases hv : v < n
      · exact h.count_le hv
      · rw [List.count_eq_zero.mpr fun hmem => hv (hlt node h.node_lt v hmem)]
        exact Nat.zero_le _
    obtain ⟨degrees, new, hrun, hlen', hdegrees, hnodup, hmem⟩ := @release_spec (E node) rest _ hcount
    rw [hlen] at hlen' hmem
    have hnext := h.take (fun v _ => hdegrees v) hnodup hmem
    obtain ⟨final, degree, hfinal, hfrontier⟩ := ih hlen' hnext (by
      rw [List.length_append, List.length_singleton]
      omega)
    refine ⟨final, degree, ?_, hfrontier⟩
    unfold runOrder
    rw [List.getLast?_concat]
    refine except_bind_eq_ok.mpr ⟨_, orInvalid_eq_ok.mpr (hedges node h.node_lt), ?_⟩
    refine except_bind_eq_ok.mpr ⟨_, by rw [List.dropLast_concat]; exact hrun, ?_⟩
    exact hfinal

def targets (owners : StreamOwners) (pairs : List (UInt64 × UInt64)) (u : ℕ) : List ℕ :=
  (pairs.filter fun pair => owners.source pair = u).map owners.target

section
variable {owners : StreamOwners} {n : ℕ} {pairs : List (UInt64 × UInt64)}

theorem incoming_targets (hsource : ∀ pair ∈ pairs, owners.source pair < n) (v : ℕ) :
    incoming (targets owners pairs) n [] v = pairs.countP fun pair => owners.target pair = v := by
  have hall : (List.range n).filter (· ∉ ([] : List ℕ)) = List.range n := by simp
  unfold incoming
  rw [hall]
  induction pairs with
  | nil => simp [targets]
  | cons pair pairs ih =>
    have hrest := ih fun p hp => hsource p (List.mem_cons_of_mem _ hp)
    have hlt := hsource pair (List.mem_cons_self ..)
    have hsplit : ∀ u, (targets owners (pair :: pairs) u).count v =
        (if owners.source pair = u then (if owners.target pair = v then 1 else 0) else 0) +
          (targets owners pairs u).count v := by
      intro u
      unfold targets
      by_cases hu : owners.source pair = u
      · by_cases hv : owners.target pair = v
        · simp [hu, hv, Nat.add_comm]
        · simp [hu, hv]
      · simp [hu]
    have hone : ((List.range n).map fun u =>
        if owners.source pair = u then (if owners.target pair = v then 1 else 0) else 0).sum =
          if owners.target pair = v then 1 else 0 := by
      show ∑ u ∈ Finset.range n,
        (if owners.source pair = u then (if owners.target pair = v then 1 else 0) else 0) = _
      rw [Finset.sum_ite_eq, if_pos (Finset.mem_range.mpr hlt)]
    rw [List.map_congr_left fun u _ => hsplit u, List.sum_map_add, hone, hrest, List.countP_cons,
      Nat.add_comm]
    simp

theorem targets_lt (htarget : ∀ pair ∈ pairs, owners.target pair < n) (u : ℕ) :
    ∀ v ∈ targets owners pairs u, v < n := by
  intro v hv
  obtain ⟨pair, hpair, rfl⟩ := List.mem_map.mp hv
  exact htarget pair (List.mem_filter.mp hpair).1

/-- The order is found exactly when there is no cycle. -/
theorem executionOrder_ofPairs (hsource : ∀ pair ∈ pairs, owners.source pair < n)
    (htarget : ∀ pair ∈ pairs, owners.target pair < n) :
    ((∃ order, (ofPairs owners n pairs).executionOrder = .ok order) ↔
      Acyclic (Leads (targets owners pairs) n)) ∧
    ∀ order, (ofPairs owners n pairs).executionOrder = .ok order →
      order.Perm (List.range n) ∧ Ordered (Leads (targets owners pairs) n) order := by
  have hlen : (ofPairs owners n pairs).indegree.length = n := by
    unfold ofPairs
    rw [List.length_map, List.length_range]
  have hdegree : ∀ v < n, (ofPairs owners n pairs).indegree[v]? =
      some (pairs.countP fun pair => owners.target pair = v) := by
    intro v hv
    unfold ofPairs
    rw [getElem?_map_range _ hv]
  -- before the first turn every edge is still to come
  have hincoming : ∀ v < n, (ofPairs owners n pairs).indegree.getD v 0 =
      incoming (targets owners pairs) n [] v := by
    intro v hv
    rw [incoming_targets hsource, List.getD_eq_getElem?_getD, hdegree v hv]
    rfl
  have hstart := Frontier.start hincoming
  have hready : ((List.range (ofPairs owners n pairs).indegree.length).filter fun i =>
      (ofPairs owners n pairs).indegree[i]? == some 0) =
      (List.range n).filter fun v => (ofPairs owners n pairs).indegree.getD v 0 = 0 := by
    rw [hlen]
    apply List.filter_congr
    intro v hv
    rw [List.getD_eq_getElem?_getD, hdegree v (List.mem_range.mp hv), Bool.eq_iff_iff]
    simp
  have hedges : ∀ u < n, (ofPairs owners n pairs).edges[u]? = some (targets owners pairs u) := by
    intro u hu
    unfold ofPairs
    rw [getElem?_map_range _ hu]
    rfl
  rw [← hready] at hstart
  obtain ⟨final, degree, hrun, hfinal⟩ := runOrder_spec hedges (fun u _ => targets_lt htarget u) hlen
    hstart (Nat.add_zero n)
  -- the order is accepted when it has all coders
  have hresult : ∀ order, (ofPairs owners n pairs).executionOrder = .ok order ↔
      final.length = n ∧ order = final := by
    intro order
    unfold executionOrder
    rw [hlen] at hrun ⊢
    dsimp only
    rw [hrun]
    show (if final.length = n then _ else _) = _ ↔ _
    split
    · rename_i hfull
      exact ⟨fun h => ⟨hfull, (Except.ok.inj h).symm⟩, fun h => by rw [h.2]⟩
    · rename_i hshort
      constructor
      · intro h
        cases h
      · exact fun h => absurd h.1 hshort
  constructor
  · constructor
    · rintro ⟨order, horder⟩
      exact hfinal.acyclic ((hresult order).mp horder).1 fun u _ => targets_lt htarget u
    · exact fun hacyclic => ⟨final, (hresult final).mpr ⟨hfinal.length_eq hacyclic, rfl⟩⟩
  · intro order horder
    obtain ⟨hfull, rfl⟩ := (hresult order).mp horder
    exact ⟨hfinal.perm_range hfull, hfinal.ordered⟩

end

end Bindings

/-! The graph of a folder -/

namespace Folder

variable {folder : Folder}

def owners (folder : Folder) : StreamOwners := ⟨folder.inputOwners, folder.outputOwners⟩

def InRange (folder : Folder) : Prop := ∀ pair ∈ folder.bindPairs,
  pair.1.toNat < folder.totalInStreams ∧ pair.2.toNat < folder.totalOutStreams

theorem InRange.source (h : folder.InRange) {pair : UInt64 × UInt64} (hpair : pair ∈ folder.bindPairs) :
    folder.outputOwners[pair.2.toNat]? = some (folder.owners.source pair) := by
  have hlt : pair.2.toNat < folder.owners.outputs.length := by
    show pair.2.toNat < folder.outputOwners.length
    rw [length_outputOwners]
    exact (h pair hpair).2
  exact Bindings.source_of_lt hlt

theorem InRange.target (h : folder.InRange) {pair : UInt64 × UInt64} (hpair : pair ∈ folder.bindPairs) :
    folder.inputOwners[pair.1.toNat]? = some (folder.owners.target pair) := by
  have hlt : pair.1.toNat < folder.owners.inputs.length := by
    show pair.1.toNat < folder.inputOwners.length
    rw [length_inputOwners]
    exact (h pair hpair).1
  exact Bindings.target_of_lt hlt

theorem InRange.source_lt (h : folder.InRange) {pair : UInt64 × UInt64} (hpair : pair ∈ folder.bindPairs) :
    folder.owners.source pair < folder.coders.length :=
  mem_outputOwners (List.mem_of_getElem? (h.source hpair))

theorem InRange.target_lt (h : folder.InRange) {pair : UInt64 × UInt64} (hpair : pair ∈ folder.bindPairs) :
    folder.owners.target pair < folder.coders.length :=
  mem_inputOwners (List.mem_of_getElem? (h.target hpair))

/-- The edges of the search are the bindings between coders. -/
theorem InRange.leads_eq (h : folder.InRange) :
    Topological.Leads (Bindings.targets folder.owners folder.bindPairs) folder.coders.length =
      folder.Feeds := by
  funext c d
  apply propext
  constructor
  · rintro ⟨-, hmem⟩
    obtain ⟨pair, hpair, rfl⟩ := List.mem_map.mp hmem
    obtain ⟨hpair, hsource⟩ := List.mem_filter.mp hpair
    refine ⟨pair, hpair, ?_, h.target hpair⟩
    rw [← of_decide_eq_true hsource]
    exact h.source hpair
  · rintro ⟨pair, hpair, hsource, htarget⟩
    rw [h.source hpair] at hsource
    rw [h.target hpair] at htarget
    rw [← Option.some.inj hsource, ← Option.some.inj htarget]
    refine ⟨h.source_lt hpair, List.mem_map.mpr ⟨pair, List.mem_filter.mpr ⟨hpair, ?_⟩, rfl⟩⟩
    exact decide_eq_true rfl

/-- Some input is left unbound: one of a coder that nothing feeds. -/
theorem freeInputs_ne_nil (harity : ∀ coder ∈ folder.coders, coder.HasArity)
    (hcoders : folder.coders ≠ []) (hacyclic : Topological.Acyclic folder.Feeds)
    (hrange : folder.InRange) : folder.freeInputs ≠ [] := by
  intro hempty
  have hpos : (Finset.range folder.coders.length).Nonempty :=
    Finset.nonempty_range_iff.mpr (List.length_pos_iff.mpr hcoders).ne'
  obtain ⟨c, hc, hfirst⟩ := hacyclic.exists_first hpos
  have hc : c < folder.coders.length := Finset.mem_range.mp hc
  have hmem : c ∈ folder.inputOwners :=
    (mem_copies fun c : CoderInfo => c.numInStreams.toNat).mpr
      ⟨folder.coders[c], Nat.zero_le _, List.getElem?_eq_getElem hc,
        (harity _ (List.getElem_mem hc)).inputs.1⟩
  obtain ⟨i, hi, hat⟩ := List.mem_iff_getElem.mp hmem
  have hbound : i ∈ folder.bindPairs.map fun pair => pair.1.toNat := by
    by_contra hfree
    have hmem : i ∈ folder.freeInputs := by
      rw [length_inputOwners] at hi
      exact List.mem_filter.mpr ⟨List.mem_range.mpr hi, decide_eq_true hfree⟩
    rw [hempty] at hmem
    exact List.not_mem_nil hmem
  obtain ⟨pair, hpair, rfl⟩ := List.mem_map.mp hbound
  refine hfirst _ (Finset.mem_range.mpr (hrange.source_lt hpair)) ⟨pair, hpair, hrange.source hpair, ?_⟩
  rw [List.getElem?_eq_getElem hi, hat]

theorem bindings_eq_ok {bindings : Bindings} :
    Bindings.new folder.bindPairs folder.owners folder.coders.length = .ok bindings ↔
      folder.bindPairs.length + 1 = folder.totalOutStreams ∧ folder.InRange ∧
      (∀ pair ∈ folder.bindPairs, folder.owners.source pair ≠ folder.owners.target pair) ∧
      (folder.bindPairs.map fun pair => pair.1.toNat).Nodup ∧
      (folder.bindPairs.map fun pair => pair.2.toNat).Nodup ∧
      bindings = Bindings.ofPairs folder.owners folder.coders.length folder.bindPairs := by
  have hin : folder.owners.inputs.length = folder.totalInStreams := length_inputOwners folder
  have hout : folder.owners.outputs.length = folder.totalOutStreams := length_outputOwners folder
  have hfold := @Bindings.foldlM_bind folder.owners folder.coders.length
    (fun c hc => mem_inputOwners hc) (fun c hc => mem_outputOwners hc) bindings folder.bindPairs []
    List.nodup_nil List.nodup_nil
  rw [hin, hout, List.nil_append] at hfold
  unfold Bindings.new
  rw [Bindings.unbound_eq, hout]
  constructor
  · intro h
    split at h
    · cases h
    · rename_i hcount
      obtain ⟨hpairs, hins, houts, hafter⟩ := hfold.mp h
      rw [not_or, not_lt, not_not] at hcount
      refine ⟨by omega, fun pair hpair => ⟨(hpairs pair hpair).1, (hpairs pair hpair).2.1⟩,
        fun pair hpair => (hpairs pair hpair).2.2, hins, houts, hafter⟩
  · rintro ⟨hcount, hrange, hne, hins, houts, hafter⟩
    rw [if_neg (by omega)]
    exact hfold.mpr ⟨fun pair hpair => ⟨(hrange pair hpair).1, (hrange pair hpair).2, hne pair hpair⟩,
      hins, houts, hafter⟩

theorem coders_ne_nil (h : folder.bindPairs.length + 1 = folder.totalOutStreams) :
    folder.coders ≠ [] := by
  intro hnil
  unfold totalOutStreams at h
  rw [hnil] at h
  exact absurd h (Nat.succ_ne_zero _)

end Folder

/-- The tables of the view: the owners, what each input is bound to, and the packed streams. -/
structure FolderGraph.Tables (graph : FolderGraph) (folder : Folder) : Prop where
  inputOwners : graph.inputOwners = folder.inputOwners
  outputOwners : graph.outputOwners = folder.outputOwners
  inputSources : graph.inputSources = (List.range folder.totalInStreams).map fun i =>
    (folder.bindPairs.find? fun pair => pair.1.toNat = i).map fun pair => pair.2.toNat
  packedInputs : graph.packedInputs =
    if folder.packedIndices = [] then folder.freeInputs else folder.packedIndices.map UInt64.toNat

namespace Folder

variable {folder : Folder}

theorem graph_ok_iff : (∃ graph, folder.graph = .ok graph) ↔ folder.ValidGraph := by
  have hin : folder.owners.inputs.length = folder.totalInStreams := length_inputOwners folder
  have hfree : folder.freeInputs = (List.range folder.owners.inputs.length).filter
      (· ∉ folder.bindPairs.map fun pair => pair.1.toNat) := by
    rw [hin]
    rfl
  unfold graph
  constructor
  · rintro ⟨graph, h⟩
    obtain ⟨owners, howners, h⟩ := except_bind_eq_ok.mp h
    obtain ⟨harity, hinputs, houtputs, rfl⟩ := StreamOwners.fromCoders_eq_ok.mp howners
    obtain ⟨bindings, hbindings, h⟩ := except_bind_eq_ok.mp h
    obtain ⟨hcount, hrange, hne, hins, houts, rfl⟩ := bindings_eq_ok.mp hbindings
    obtain ⟨output, -, h⟩ := except_bind_eq_ok.mp h
    obtain ⟨packed, hpacked, h⟩ := except_bind_eq_ok.mp h
    obtain ⟨order, horder, h⟩ := except_bind_eq_ok.mp h
    have hacyclic := (Bindings.executionOrder_ofPairs (fun pair hpair => hrange.source_lt hpair)
      fun pair hpair => hrange.target_lt hpair).1.mp ⟨order, horder⟩
    rw [hrange.leads_eq] at hacyclic
    refine ⟨harity, hinputs, houtputs, hcount, hrange, hins, houts, hacyclic, ?_⟩
    rcases (Bindings.packedInputs_ofPairs hfree).mp hpacked with ⟨hnil, -, hone⟩ | ⟨-, hinputs, hperm⟩
    · exact .inr ⟨hnil, hone⟩
    · rw [hinputs] at hperm
      exact .inl hperm
  · intro h
    have hrange : folder.InRange := h.inRange
    -- a coder that feeds itself is a cycle
    have hne : ∀ pair ∈ folder.bindPairs, folder.owners.source pair ≠ folder.owners.target pair := by
      intro pair hpair heq
      refine h.acyclic (folder.owners.source pair) (.single ⟨pair, hpair, hrange.source hpair, ?_⟩)
      rw [hrange.target hpair, heq]
    have howners : StreamOwners.fromCoders folder.coders = .ok folder.owners :=
      StreamOwners.fromCoders_eq_ok.mpr ⟨h.arity, h.inputs, h.outputs, rfl⟩
    have hbindings := bindings_eq_ok.mpr ⟨h.pairs, hrange, hne, h.inputOnce, h.outputOnce, rfl⟩
    have hcount : folder.bindPairs.length + 1 = folder.owners.outputs.length := by
      rw [h.pairs]
      exact (length_outputOwners folder).symm
    have houts : ∀ pair ∈ folder.bindPairs, pair.2.toNat < folder.owners.outputs.length := by
      intro pair hpair
      show pair.2.toNat < folder.outputOwners.length
      rw [length_outputOwners]
      exact (hrange pair hpair).2
    obtain ⟨output, houtput, -⟩ :=
      @Bindings.finalOutput_ofPairs folder.owners folder.coders.length folder.bindPairs h.outputOnce houts
        hcount
    -- an acyclic graph has a free input
    have hpacked : ∃ packed, (Bindings.ofPairs folder.owners folder.coders.length
        folder.bindPairs).packedInputs folder.packedIndices = .ok packed := by
      by_cases hnil : folder.packedIndices = []
      · refine ⟨_, (Bindings.packedInputs_ofPairs hfree).mpr (.inl ⟨hnil, rfl, ?_⟩)⟩
        rcases h.packed with hperm | ⟨-, hone⟩
        · rw [hnil, List.map_nil] at hperm
          exact absurd (List.nil_perm.mp hperm)
            (freeInputs_ne_nil h.arity (coders_ne_nil h.pairs) h.acyclic hrange)
        · exact hone
      · refine ⟨_, (Bindings.packedInputs_ofPairs hfree).mpr (.inr ⟨hnil, rfl, ?_⟩)⟩
        rcases h.packed with hperm | ⟨hnil', -⟩
        · exact hperm
        · exact absurd hnil' hnil
    obtain ⟨packed, hpacked⟩ := hpacked
    have hacyclic := h.acyclic
    rw [← hrange.leads_eq] at hacyclic
    obtain ⟨order, horder⟩ := (Bindings.executionOrder_ofPairs (fun pair hpair => hrange.source_lt hpair)
      fun pair hpair => hrange.target_lt hpair).1.mpr hacyclic
    refine ⟨{ executionOrder := order, packedInputs := packed, finalOutput := output,
              inputOwners := folder.inputOwners, outputOwners := folder.outputOwners,
              inputSources := (Bindings.ofPairs folder.owners folder.coders.length
                folder.bindPairs).inputSources }, ?_⟩
    refine except_bind_eq_ok.mpr ⟨_, howners, ?_⟩
    refine except_bind_eq_ok.mpr ⟨_, hbindings, ?_⟩
    refine except_bind_eq_ok.mpr ⟨_, houtput, ?_⟩
    refine except_bind_eq_ok.mpr ⟨_, hpacked, ?_⟩
    exact except_bind_eq_ok.mpr ⟨_, horder, rfl⟩

theorem outputReaches {order : List CoderIndex} {final : OutputStreamIndex}
    (harity : ∀ coder ∈ folder.coders, coder.HasArity) (hrange : folder.InRange)
    (hperm : order.Perm (List.range folder.coders.length))
    (hordered : Topological.Ordered folder.Feeds order)
    (hfinal : ∀ output < folder.totalOutStreams,
      (∀ pair ∈ folder.bindPairs, pair.2.toNat ≠ output) → output = final) :
    ∀ k, ∀ output < folder.totalOutStreams, ∀ c, folder.outputOwners[output]? = some c →
      order.length ≤ order.idxOf c + k → folder.OutputReaches final output := by
  have hmem : ∀ c < folder.coders.length, c ∈ order := fun c hc =>
    hperm.mem_iff.mpr (List.mem_range.mpr hc)
  intro k
  induction k with
  | zero =>
    intro output _ c hc hlen
    have hlt := List.idxOf_lt_length_iff.mpr (hmem c (mem_outputOwners (List.mem_of_getElem? hc)))
    omega
  | succ k ih =>
    intro output houtput c hc hlen
    by_cases hfree : ∀ pair ∈ folder.bindPairs, pair.2.toNat ≠ output
    · rw [hfinal output houtput hfree]
      exact .final
    · simp only [not_forall, not_not] at hfree
      obtain ⟨pair, hpair, hbound⟩ := hfree
      have hnext := hrange.target_lt hpair
      have hmemNext : folder.owners.target pair ∈ folder.outputOwners :=
        (mem_copies fun c : CoderInfo => c.numOutStreams.toNat).mpr
          ⟨folder.coders[folder.owners.target pair], Nat.zero_le _, List.getElem?_eq_getElem hnext,
            (harity _ (List.getElem_mem hnext)).outputs.1⟩
      obtain ⟨next, hlt, hat⟩ := List.mem_iff_getElem.mp hmemNext
      have howner : folder.outputOwners[next]? = some (folder.owners.target pair) := by
        rw [List.getElem?_eq_getElem hlt, hat]
      have hfeeds : folder.Feeds c (folder.owners.target pair) :=
        ⟨pair, hpair, by rw [hbound]; exact hc, hrange.target hpair⟩
      have hlater := hordered.idxOf_lt (hmem _ hnext) hfeeds
      rw [length_outputOwners] at hlt
      exact .step pair hpair hbound (hrange.target hpair) howner
        (ih next hlt _ howner (by omega))

theorem graph_spec {graph : FolderGraph} (h : folder.graph = .ok graph) :
    graph.Describes folder ∧ graph.Tables folder := by
  have hin : folder.owners.inputs.length = folder.totalInStreams := length_inputOwners folder
  have hout : folder.owners.outputs.length = folder.totalOutStreams := length_outputOwners folder
  have hfree : folder.freeInputs = (List.range folder.owners.inputs.length).filter
      (· ∉ folder.bindPairs.map fun pair => pair.1.toNat) := by
    rw [hin]
    rfl
  unfold Folder.graph at h
  obtain ⟨owners, howners, h⟩ := except_bind_eq_ok.mp h
  obtain ⟨harity, -, -, rfl⟩ := StreamOwners.fromCoders_eq_ok.mp howners
  obtain ⟨bindings, hbindings, h⟩ := except_bind_eq_ok.mp h
  obtain ⟨hcount, hrange, -, -, houts, rfl⟩ := bindings_eq_ok.mp hbindings
  obtain ⟨output, houtput, h⟩ := except_bind_eq_ok.mp h
  obtain ⟨packed, hpacked, h⟩ := except_bind_eq_ok.mp h
  obtain ⟨order, horder, h⟩ := except_bind_eq_ok.mp h
  rw [← Except.ok.inj h]
  obtain ⟨hperm, hordered⟩ := (Bindings.executionOrder_ofPairs (fun pair hpair => hrange.source_lt hpair)
    fun pair hpair => hrange.target_lt hpair).2 order horder
  rw [hrange.leads_eq] at hordered
  have houtRange : ∀ pair ∈ folder.bindPairs, pair.2.toNat < folder.owners.outputs.length := by
    intro pair hpair
    rw [hout]
    exact (hrange pair hpair).2
  obtain ⟨final, hfinal, honly⟩ := @Bindings.finalOutput_ofPairs folder.owners folder.coders.length
    folder.bindPairs houts houtRange (by rw [hout]; exact hcount)
  have hsame : final = output := Except.ok.inj (hfinal.symm.trans houtput)
  rw [hsame, hout] at honly
  -- one output is left unbound, and it is the final one
  have hmem : ∀ i, (i < folder.totalOutStreams ∧ ∀ pair ∈ folder.bindPairs, pair.2.toNat ≠ i) ↔
      i = output := by
    intro i
    rw [← List.mem_singleton, ← honly, List.mem_filter, List.mem_range, decide_eq_true_eq, List.mem_map]
    constructor
    · exact fun ⟨hlt, hall⟩ => ⟨hlt, fun ⟨pair, hpair, heq⟩ => hall pair hpair heq⟩
    · exact fun ⟨hlt, hall⟩ => ⟨hlt, fun pair hpair heq => hall ⟨pair, hpair, heq⟩⟩
  have hfinal_iff : ∀ i < folder.totalOutStreams,
      (∀ pair ∈ folder.bindPairs, pair.2.toNat ≠ i) ↔ i = output :=
    fun i hi => ⟨fun hall => (hmem i).mp ⟨hi, hall⟩, fun heq => ((hmem i).mpr heq).2⟩
  refine ⟨⟨hperm, hordered, ((hmem output).mpr rfl).1, hfinal_iff, ?_⟩, ⟨rfl, rfl, ?_, ?_⟩⟩
  · intro i hi
    have hlt : i < folder.outputOwners.length := by
      rw [length_outputOwners]
      exact hi
    exact outputReaches harity hrange hperm hordered (fun j hj hall => (hfinal_iff j hj).mp hall)
      order.length i hi _ (List.getElem?_eq_getElem hlt) (Nat.le_add_left _ _)
  · show (Bindings.ofPairs folder.owners folder.coders.length folder.bindPairs).inputSources = _
    unfold Bindings.ofPairs
    rw [hin]
  · rcases (Bindings.packedInputs_ofPairs hfree).mp hpacked with ⟨hnil, hpacked, -⟩ | ⟨hnil, hpacked, -⟩
    · rw [if_pos hnil]
      exact hpacked
    · rw [if_neg hnil]
      exact hpacked

theorem freeInputs_nodup (folder : Folder) : folder.freeInputs.Nodup :=
  List.nodup_range.filter _

theorem packedInputs_perm {folder : Folder} {graph : FolderGraph} (h : folder.graph = .ok graph) :
    graph.packedInputs.Perm folder.freeInputs := by
  obtain ⟨-, htables⟩ := graph_spec h
  rw [htables.packedInputs]
  split
  · exact .refl _
  · rename_i hne
    rcases (graph_ok_iff.mp ⟨graph, h⟩).packed with hperm | ⟨hnil, -⟩
    · exact hperm
    · exact absurd hnil hne

/-- The graph of a folder is found exactly when its coders, bind pairs and packed streams make up a
valid one; then the order is one in which coders come after those that feed them, and every output leads
to the only one that is not bound. -/
theorem graph_valid (folder : Folder) :
    ((∃ graph, folder.graph = .ok graph) ↔ folder.ValidGraph) ∧
      ∀ graph, folder.graph = .ok graph → graph.Describes folder :=
  ⟨graph_ok_iff, fun _ h => (graph_spec h).1⟩

def twoCoders : Folder :=
  { coders := List.replicate 2 { codecId := ⟨[0x00], by decide⟩, numInStreams := 1, numOutStreams := 1,
                                 properties := none }
    bindPairs := [(0, 1)], packedIndices := [] }

theorem graph_valid_two : ∃ graph, twoCoders.graph = .ok graph ∧ graph.Describes twoCoders := by
  have hgraph : ∃ graph, twoCoders.graph = .ok graph :=
    ⟨⟨[1, 0], [1], 0, [0, 1], [0, 1], [some 1, none]⟩, by decide +kernel⟩
  obtain ⟨graph, hgraph⟩ := hgraph
  exact ⟨graph, hgraph, (graph_valid twoCoders).2 graph hgraph⟩

end Folder

end R7z
