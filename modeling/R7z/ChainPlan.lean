import R7z.Decode.Eager
import R7z.GraphOrder

/-! Folders whose coders all have one input and one output: the order in which they run is the way of the
data, and the sizes that were left out come from neighbours across coders that keep the length. -/

namespace R7z

open Wire

/-! Sizes that are known -/

namespace OutputSize

/-- What is known stays known. -/
def Keeps (a b : OutputSize) : Prop := ∀ size, a = .Known size → b = .Known size

theorem Keeps.refl (a : OutputSize) : a.Keeps a := fun _ h => h

theorem Keeps.trans {a b c : OutputSize} (h : a.Keeps b) (h' : b.Keeps c) : a.Keeps c :=
  fun size hsize => h' size (h size hsize)

theorem reconcile_spec {a b c : OutputSize} (h : a.reconcile b = .ok c) :
    a.Keeps c ∧ b.Keeps c ∧ (c = a ∨ c = b) := by
  unfold reconcile at h
  split at h
  · rename_i x y
    split at h
    · cases h
    · rename_i heq
      obtain rfl : x = y := not_ne_iff.mp heq
      obtain rfl := Except.ok.inj h
      exact ⟨.refl _, .refl _, .inl rfl⟩
  · obtain rfl := Except.ok.inj h
    exact ⟨fun _ hsize => (nomatch hsize), .refl _, .inr rfl⟩
  · obtain rfl := Except.ok.inj h
    exact ⟨.refl _, fun _ hsize => (nomatch hsize), .inl rfl⟩

end OutputSize

namespace CoderOutputSizes

def ofPartial (folder : Folder) (graph : FolderGraph) (finalSize : UInt64) (declared : List UInt64) :
    Except R7zError CoderOutputSizes :=
  if declared.length > folder.totalOutStreams then .error .invalidFolderGraph
  else if (declared[graph.finalOutput]?).any fun size => size ≠ finalSize then .error .parse
  else .ok { declared, finalIndex := graph.finalOutput, finalSize }

/-- The sizes that are given are those that are read, the last one by itself. -/
structure Reads (sizes : CoderOutputSizes) (graph : FolderGraph) (finalSize : UInt64)
    (declared : List UInt64) : Prop where
  given : ∀ index size, declared[index]? = some size → sizes.get index = .Known size
  final : sizes.get graph.finalOutput = .Known finalSize
  omitted : ∀ index, index ≠ graph.finalOutput → declared[index]? = none → sizes.get index = .Unknown

theorem reads_of_ok {folder : Folder} {graph : FolderGraph} {finalSize : UInt64} {declared : List UInt64}
    {sizes : CoderOutputSizes} (h : ofPartial folder graph finalSize declared = .ok sizes) :
    sizes.Reads graph finalSize declared := by
  unfold ofPartial at h
  split at h
  · cases h
  split at h
  · cases h
  rename_i hagree
  obtain rfl := Except.ok.inj h
  refine ⟨fun index size hat => ?_, if_pos rfl, fun index hne hat => ?_⟩
  · unfold get
    split
    · rename_i hindex
      dsimp only at hindex
      rw [← hindex, hat, Option.any_some, decide_eq_true_eq, not_ne_iff] at hagree
      exact congrArg _ hagree.symm
    · rw [hat]
  · unfold get
    rw [if_neg hne, hat]

theorem complete_eq (folder : Folder) (graph : FolderGraph) (finalSize : UInt64) (declared : List UInt64) :
    complete folder graph finalSize declared =
      if declared.length ≠ folder.totalOutStreams then .error .invalidFolderGraph
      else ofPartial folder graph finalSize declared := by
  unfold complete ofPartial
  split
  · rfl
  · rename_i heq
    have hle : ¬declared.length > folder.totalOutStreams := by
      rw [not_ne_iff.mp heq]
      exact lt_irrefl _
    rw [if_neg hle]

end CoderOutputSizes

/-! The way of the data -/

namespace Folder

def Simple (folder : Folder) : Prop :=
  ∀ coder ∈ folder.coders, coder.numInStreams = 1 ∧ coder.numOutStreams = 1

instance (folder : Folder) : Decidable folder.Simple :=
  inferInstanceAs (Decidable (∀ coder ∈ folder.coders, coder.numInStreams = 1 ∧ coder.numOutStreams = 1))

/-- The order leads from the packed stream, each coder feeding the next, to the final output. -/
structure FollowsData (folder : Folder) (graph : FolderGraph) : Prop where
  all : graph.executionOrder.Perm (List.range folder.coders.length)
  first : ∃ input, graph.packedInputs = [input] ∧
    folder.inputOwners[input]? = graph.executionOrder.head? ∧ graph.executionOrder ≠ []
  next : ∀ k c d, graph.executionOrder[k]? = some c → graph.executionOrder[k + 1]? = some d →
    folder.Feeds c d
  last : folder.outputOwners[graph.finalOutput]? = graph.executionOrder.getLast?
  own : ∀ c < folder.coders.length, folder.inputOwners[c]? = some c ∧ folder.outputOwners[c]? = some c

variable {folder : Folder} {graph : FolderGraph}

theorem copies_one {α : Type} (size : α → ℕ) : ∀ {l : List α} {k : ℕ}, (∀ a ∈ l, size a = 1) →
    ((l.zipIdx k).flatMap fun p => List.replicate (size p.1) p.2) = List.range' k l.length
  | [], _, _ => rfl
  | a :: l, k, h => by
    rw [List.zipIdx_cons, List.flatMap_cons, h a (List.mem_cons_self ..), List.length_cons,
      List.range'_succ, copies_one size fun b hb => h b (List.mem_cons_of_mem _ hb)]
    rfl

theorem Simple.inputOwners (h : folder.Simple) : folder.inputOwners = List.range folder.coders.length := by
  rw [List.range_eq_range']
  exact copies_one (fun c : CoderInfo => c.numInStreams.toNat) fun coder hcoder => by
    rw [(h coder hcoder).1]
    rfl

theorem Simple.outputOwners (h : folder.Simple) :
    folder.outputOwners = List.range folder.coders.length := by
  rw [List.range_eq_range']
  exact copies_one (fun c : CoderInfo => c.numOutStreams.toNat) fun coder hcoder => by
    rw [(h coder hcoder).2]
    rfl

theorem Simple.totalInStreams (h : folder.Simple) : folder.totalInStreams = folder.coders.length := by
  rw [← length_inputOwners, h.inputOwners, List.length_range]

theorem Simple.totalOutStreams (h : folder.Simple) : folder.totalOutStreams = folder.coders.length := by
  rw [← length_outputOwners, h.outputOwners, List.length_range]

theorem Simple.owner_eq {i : ℕ} {c : CoderIndex} (h : (List.range folder.coders.length)[i]? = some c) :
    i = c := by
  obtain ⟨hlt, hat⟩ := List.getElem?_eq_some_iff.mp h
  rwa [List.getElem_range] at hat

theorem Simple.feeds_iff (h : folder.Simple) (hrange : folder.InRange) {c d : CoderIndex} :
    folder.Feeds c d ↔ ∃ pair ∈ folder.bindPairs, pair.2.toNat = c ∧ pair.1.toNat = d := by
  unfold Feeds
  rw [h.inputOwners, h.outputOwners]
  constructor
  · rintro ⟨pair, hpair, hc, hd⟩
    exact ⟨pair, hpair, owner_eq hc, owner_eq hd⟩
  · rintro ⟨pair, hpair, rfl, rfl⟩
    obtain ⟨hin, hout⟩ := hrange pair hpair
    rw [h.totalInStreams] at hin
    rw [h.totalOutStreams] at hout
    exact ⟨pair, hpair, List.getElem?_range hout, List.getElem?_range hin⟩

theorem Simple.packedInputs (h : folder.Simple) (hgraph : folder.graph = .ok graph) :
    ∃ input, graph.packedInputs = [input] ∧ folder.freeInputs = [input] := by
  have hvalid := graph_ok_iff.mp ⟨graph, hgraph⟩
  have hlength : folder.freeInputs.length = 1 := by
    have hfree := @Bindings.length_free folder.totalInStreams (folder.bindPairs.map fun pair => pair.1.toNat)
      hvalid.inputOnce fun i hi => by
        obtain ⟨pair, hpair, rfl⟩ := List.mem_map.mp hi
        exact (hvalid.inRange pair hpair).1
    have hpairs := hvalid.pairs
    rw [h.totalOutStreams, ← h.totalInStreams] at hpairs
    rw [List.length_map] at hfree
    have hsum : folder.bindPairs.length + folder.freeInputs.length = folder.totalInStreams := hfree
    omega
  obtain ⟨input, hinput⟩ := List.length_eq_one_iff.mp hlength
  have hperm := packedInputs_perm hgraph
  rw [hinput] at hperm
  exact ⟨input, List.perm_singleton.mp hperm, hinput⟩

theorem Simple.followsData (h : folder.Simple) (hgraph : folder.graph = .ok graph) :
    folder.FollowsData graph := by
  obtain ⟨hdescribes, -⟩ := graph_spec hgraph
  have hvalid := graph_ok_iff.mp ⟨graph, hgraph⟩
  have hrange : folder.InRange := hvalid.inRange
  have hmem : ∀ c, c ∈ graph.executionOrder ↔ c < folder.coders.length :=
    fun c => hdescribes.perm.mem_iff.trans List.mem_range
  have hnodup : graph.executionOrder.Nodup := hdescribes.perm.nodup_iff.mpr List.nodup_range
  have hlength : graph.executionOrder.length = folder.coders.length := by
    rw [hdescribes.perm.length_eq, List.length_range]
  have hpos : 0 < graph.executionOrder.length := by
    rw [hlength]
    exact List.length_pos_iff.mpr (coders_ne_nil hvalid.pairs)
  obtain ⟨input, hpacked, hfree⟩ := h.packedInputs hgraph
  have hidx : ∀ {k : ℕ} (hk : k < graph.executionOrder.length),
      graph.executionOrder.idxOf graph.executionOrder[k] = k := fun hk => hnodup.idxOf_getElem _ hk
  -- who feeds a coder stands before it, so nothing feeds the first
  have hearlier : ∀ {k : ℕ} (hk : k < graph.executionOrder.length) (c : CoderIndex),
      folder.Feeds c graph.executionOrder[k] → graph.executionOrder.idxOf c < k := by
    intro k hk c hc
    have hlt := hdescribes.ordered.idxOf_lt (List.getElem_mem hk) hc
    rwa [hidx hk] at hlt
  have hfirst : graph.executionOrder[0] = input := by
    have hfree₀ : graph.executionOrder[0] ∈ folder.freeInputs := by
      refine List.mem_filter.mpr ⟨List.mem_range.mpr ?_, decide_eq_true fun hbound => ?_⟩
      · rw [h.totalInStreams]
        exact (hmem _).mp (List.getElem_mem hpos)
      · obtain ⟨pair, hpair, heq⟩ := List.mem_map.mp hbound
        exact Nat.not_lt_zero _ (hearlier hpos _ ((h.feeds_iff hrange).mpr ⟨pair, hpair, rfl, heq⟩))
    rw [hfree] at hfree₀
    exact List.mem_singleton.mp hfree₀
  -- a coder feeds at most one other
  have honce : ∀ {c d e : CoderIndex}, folder.Feeds c d → folder.Feeds c e → d = e := by
    intro c d e hd he
    obtain ⟨pair, hpair, hc, rfl⟩ := (h.feeds_iff hrange).mp hd
    obtain ⟨pair', hpair', hc', rfl⟩ := (h.feeds_iff hrange).mp he
    have hsame : pair = pair' := List.inj_on_of_nodup_map hvalid.outputOnce hpair hpair' (hc.trans hc'.symm)
    rw [hsame]
  -- by induction along the order: the next input is bound, and an earlier coder that fed it would feed two
  have hnext : ∀ k c, graph.executionOrder[k]? = some c → ∀ hk : k + 1 < graph.executionOrder.length,
      folder.Feeds c graph.executionOrder[k + 1] := by
    intro k
    induction k using Nat.strong_induction_on with
    | _ k ih =>
      intro c hc hk
      have hne : graph.executionOrder[k + 1] ≠ input := by
        intro heq
        rw [← hfirst] at heq
        exact Nat.succ_ne_zero k (hnodup.getElem_inj_iff.mp heq)
      have hbound : graph.executionOrder[k + 1] ∈ folder.bindPairs.map fun pair => pair.1.toNat := by
        by_contra hunbound
        have hin : graph.executionOrder[k + 1] ∈ folder.freeInputs := by
          refine List.mem_filter.mpr ⟨List.mem_range.mpr ?_, decide_eq_true hunbound⟩
          rw [h.totalInStreams]
          exact (hmem _).mp (List.getElem_mem hk)
        rw [hfree] at hin
        exact hne (List.mem_singleton.mp hin)
      obtain ⟨pair, hpair, heq⟩ := List.mem_map.mp hbound
      have hfeeds : folder.Feeds pair.2.toNat graph.executionOrder[k + 1] :=
        (h.feeds_iff hrange).mpr ⟨pair, hpair, rfl, heq⟩
      have hlt := hearlier hk _ hfeeds
      have hat : graph.executionOrder[graph.executionOrder.idxOf pair.2.toNat]? = some pair.2.toNat :=
        List.getElem?_idxOf (List.idxOf_lt_length_iff.mp (hlt.trans hk))
      rcases Nat.eq_or_lt_of_le (Nat.le_of_lt_succ hlt) with hsame | hbefore
      · rw [hsame, hc] at hat
        rw [Option.some.inj hat]
        exact hfeeds
      · have hother := ih _ hbefore _ hat (Nat.lt_of_le_of_lt hbefore (Nat.lt_of_succ_lt hk))
        have hindex := hnodup.getElem_inj_iff.mp (honce hother hfeeds)
        exact absurd (Nat.succ.inj hindex) hbefore.ne
  have hown : ∀ c < folder.coders.length,
      folder.inputOwners[c]? = some c ∧ folder.outputOwners[c]? = some c := by
    intro c hc
    rw [h.inputOwners, h.outputOwners]
    exact ⟨List.getElem?_range hc, List.getElem?_range hc⟩
  refine ⟨hdescribes.perm, ⟨input, hpacked, ?_, List.length_pos_iff.mp hpos⟩, ?_, ?_, hown⟩
  · rw [List.head?_eq_getElem?, List.getElem?_eq_getElem hpos, hfirst]
    exact (hown input (by rw [← hfirst]; exact (hmem _).mp (List.getElem_mem hpos))).1
  · intro k c d hc hd
    obtain ⟨hk, rfl⟩ := List.getElem?_eq_some_iff.mp hd
    exact hnext k c hc hk
  · -- the last one feeds nothing, or something stood behind it
    have hlast : graph.executionOrder.length - 1 < graph.executionOrder.length := Nat.sub_one_lt hpos.ne'
    have hlt := (hmem _).mp (List.getElem_mem hlast)
    have hfinal : graph.executionOrder[graph.executionOrder.length - 1] = graph.finalOutput := by
      refine (hdescribes.final_iff _ (by rwa [h.totalOutStreams])).mp fun pair hpair heq => ?_
      obtain ⟨hin, -⟩ := hrange pair hpair
      rw [h.totalInStreams] at hin
      have hj : graph.executionOrder.idxOf pair.1.toNat < graph.executionOrder.length :=
        List.idxOf_lt_length_iff.mpr ((hmem _).mpr hin)
      have hfeeds : folder.Feeds graph.executionOrder[graph.executionOrder.length - 1]
          graph.executionOrder[graph.executionOrder.idxOf pair.1.toNat] := by
        rw [List.getElem_idxOf hj]
        exact (h.feeds_iff hrange).mpr ⟨pair, hpair, heq, rfl⟩
      have hbefore := hearlier hj _ hfeeds
      rw [hidx hlast] at hbefore
      omega
    rw [List.getLast?_eq_getElem?, List.getElem?_eq_getElem hlast, hfinal]
    rw [hfinal] at hlt
    exact (hown _ hlt).2

end Folder

/-! Sizes along the chain -/

def demand : List SizedCoder → OutputSize
  | [] => .Unknown
  | coder :: _ => if coder.coder.preservesSize then coder.output else .Unknown

section
variable {ω δ : Type} (env : Environment ω δ) (folder : Folder) (sizes : CoderOutputSizes)

/-- The coders in the order they run in, each with the size that is recorded for it and what the next one
asks of it. -/
def Resolved : List CoderIndex → List SizedCoder → Prop
  | [], [] => True
  | index :: indices, coder :: coders =>
    (∃ info, folder.coders[index]? = some info ∧ CoderPlan.compile env.memory info coder.output = .ok coder.coder) ∧
      (sizes.get index).reconcile (demand coders) = .ok coder.output ∧ Resolved indices coders
  | _, _ => False

variable {env folder sizes}

theorem sizeChain_resolved : ∀ {indices after : List CoderIndex} {coders later : List SizedCoder},
    sizeChain env folder sizes indices (demand later) = .ok coders → Resolved env folder sizes after later →
      Resolved env folder sizes (indices.reverse ++ after) (coders.reverse ++ later)
  | [], _, _, _, h, hlater => by
    obtain rfl := Except.ok.inj h
    exact hlater
  | index :: indices, after, coders, later, h, hlater => by
    obtain ⟨info, hinfo, h⟩ := except_bind_eq_ok.mp h
    obtain ⟨output, houtput, h⟩ := except_bind_eq_ok.mp h
    obtain ⟨plan, hplan, h⟩ := except_bind_eq_ok.mp h
    obtain ⟨rest, hrest, h⟩ := except_bind_eq_ok.mp h
    obtain rfl := Except.ok.inj h
    rw [List.reverse_cons, List.reverse_cons, List.append_assoc, List.append_assoc, List.singleton_append,
      List.singleton_append]
    exact @sizeChain_resolved indices (index :: after) rest ({ coder := plan, output } :: later) hrest
      ⟨⟨info, orInvalid_eq_ok.mp hinfo, hplan⟩, houtput, hlater⟩

/-- A size that is known without the coders before comes from one that is recorded further on, across
coders that keep the length. -/
theorem Resolved.recorded_after {indices : List CoderIndex} {coder : SizedCoder}
    {coders : List SizedCoder} {size : UInt64} (h : Resolved env folder sizes indices (coder :: coders))
    (hknown : coder.output = .Known size) : ∃ j index, indices[j]? = some index ∧
      sizes.get index = .Known size ∧
      ∀ (m : ℕ) (later : SizedCoder), m < j → coders[m]? = some later →
        later.coder.preservesSize = true := by
  induction coders generalizing indices coder with
  | nil =>
    cases indices with
    | nil => exact h.elim
    | cons index indices =>
      obtain ⟨-, -, hfrom⟩ := OutputSize.reconcile_spec h.2.1
      rw [hknown] at hfrom
      rcases hfrom with hrecorded | hdemand
      · exact ⟨0, index, rfl, hrecorded.symm, fun m later hm => absurd hm (Nat.not_lt_zero m)⟩
      · cases hdemand
  | cons next coders ih =>
    cases indices with
    | nil => exact h.elim
    | cons index indices =>
      obtain ⟨-, -, hfrom⟩ := OutputSize.reconcile_spec h.2.1
      rw [hknown] at hfrom
      rcases hfrom with hrecorded | hdemand
      · exact ⟨0, index, rfl, hrecorded.symm, fun m later hm => absurd hm (Nat.not_lt_zero m)⟩
      · rw [demand] at hdemand
        split at hdemand
        · rename_i hpreserves
          obtain ⟨j, found, hfound, hrecorded, hbetween⟩ := ih h.2.2 hdemand.symm
          refine ⟨j + 1, found, hfound, hrecorded, fun m later hm hat => ?_⟩
          cases m with
          | zero =>
            obtain rfl : next = later := Option.some.inj hat
            exact hpreserves
          | succ m => exact hbetween m later (Nat.lt_of_succ_lt_succ hm) hat
        · cases hdemand

/-- What is recorded at the boundaries of the chain: the packed size, then the sizes of the outputs. -/
def recorded (sizes : CoderOutputSizes) (packedSize : UInt64) (order : List CoderIndex) :
    ℕ → OutputSize
  | 0 => .Known packedSize
  | k + 1 =>
    match order[k]? with
    | some index => sizes.get index
    | none => .Unknown

def PreservedBetween (steps : List DecodeStep) (i j : ℕ) : Prop :=
  ∀ m step, steps[m]? = some step → i ≤ m ∧ m < j ∨ j ≤ m ∧ m < i → step.coder.preservesSize = true

/-- The steps are the coders of the folder in the order given, with sizes that fit. -/
structure SizedSteps (env : Environment ω δ) (folder : Folder) (sizes : CoderOutputSizes)
    (packedSize : UInt64) (order : List CoderIndex) (steps : List DecodeStep) : Prop where
  coders : List.Forall₂ (fun index step => ∃ info output, folder.coders[index]? = some info ∧
    CoderPlan.compile env.memory info output = .ok step.coder ∧ output.Keeps step.output) order steps
  first : ∀ step, steps.head? = some step → step.input = .Known packedSize
  next : ∀ k step following, steps[k]? = some step → steps[k + 1]? = some following →
    following.input = step.output
  preserved : ∀ step ∈ steps, step.coder.preservesSize = true → step.input = step.output
  kept : List.Forall₂ (fun index (step : DecodeStep) => (sizes.get index).Keeps step.output) order steps
  inferred : ∀ k step size, steps[k]? = some step → step.output = .Known size →
    ∃ j, recorded sizes packedSize order j = .Known size ∧ PreservedBetween steps (k + 1) j

theorem Resolved.length_eq : ∀ {indices : List CoderIndex} {coders : List SizedCoder},
    Resolved env folder sizes indices coders → coders.length = indices.length
  | [], [], _ => rfl
  | _ :: _, _ :: _, h => congrArg Nat.succ h.2.2.length_eq

theorem Resolved.drop : ∀ {indices : List CoderIndex} {coders : List SizedCoder} (k : ℕ),
    Resolved env folder sizes indices coders → Resolved env folder sizes (indices.drop k) (coders.drop k)
  | _, _, 0, h => h
  | [], [], _ + 1, h => h
  | _ :: _, _ :: _, k + 1, h => h.2.2.drop k

theorem bindSize_eq_ok {coder : SizedCoder} {input : OutputSize} {step : DecodeStep}
    (h : coder.bindSize input = .ok step) : step.coder = coder.coder ∧ step.input = input ∧
      coder.output.Keeps step.output ∧ (coder.coder.preservesSize = true → input.Keeps step.output) ∧
      (step.output = coder.output ∨ coder.coder.preservesSize = true ∧ step.output = input) := by
  unfold SizedCoder.bindSize at h
  dsimp only at h
  split at h
  · rename_i hpreserves
    obtain ⟨output, houtput, h⟩ := except_bind_eq_ok.mp h
    obtain rfl := Except.ok.inj h
    obtain ⟨hkeeps, hinput, hfrom⟩ := OutputSize.reconcile_spec houtput
    exact ⟨rfl, rfl, hkeeps, fun _ => hinput, hfrom.imp id fun heq => ⟨hpreserves, heq⟩⟩
  · rename_i hpreserves
    obtain rfl := Except.ok.inj h
    exact ⟨rfl, rfl, .refl _, fun h => absurd h hpreserves, .inl rfl⟩

def Linked : OutputSize → List SizedCoder → List DecodeStep → Prop
  | _, [], [] => True
  | input, coder :: coders, step :: steps =>
    coder.bindSize input = .ok step ∧ Linked step.output coders steps
  | _, _, _ => False

theorem bindChain_linked : ∀ {coders : List SizedCoder} {input : OutputSize} {steps : List DecodeStep},
    bindChain input coders = .ok steps → Linked input coders steps
  | [], _, _, h => by
    obtain rfl := Except.ok.inj h
    exact trivial
  | coder :: coders, input, steps, h => by
    obtain ⟨bound, hbound, h⟩ := except_bind_eq_ok.mp h
    obtain ⟨rest, hrest, h⟩ := except_bind_eq_ok.mp h
    obtain rfl := Except.ok.inj h
    exact ⟨hbound, bindChain_linked hrest⟩

def atBoundary (packedSize : UInt64) (steps : List DecodeStep) : ℕ → OutputSize
  | 0 => .Known packedSize
  | k + 1 =>
    match steps[k]? with
    | some step => step.output
    | none => .Unknown

namespace Linked

variable {indices : List CoderIndex} {coders : List SizedCoder} {input : OutputSize}
  {steps : List DecodeStep}

theorem bound : ∀ {coders : List SizedCoder} {input : OutputSize} {steps : List DecodeStep},
    Linked input coders steps → ∀ {k : ℕ} {step : DecodeStep}, steps[k]? = some step →
    ∃ coder, coders[k]? = some coder ∧ coder.bindSize step.input = .ok step ∧
      (k = 0 → step.input = input) ∧
      ∀ j before, k = j + 1 → steps[j]? = some before → step.input = before.output
  | [], _, [], _, _, _, h => by cases h
  | coder :: coders, input, first :: steps, h, 0, step, hat => by
    obtain rfl : first = step := Option.some.inj hat
    have hinput : first.input = input := (bindSize_eq_ok h.1).2.1
    refine ⟨coder, rfl, ?_, fun _ => hinput, fun j before heq => absurd heq (Nat.succ_ne_zero j).symm⟩
    rw [hinput]
    exact h.1
  | coder :: coders, input, first :: steps, h, k + 1, step, hat => by
    obtain ⟨found, hfound, hbind, hfirst, hnext⟩ := h.2.bound hat
    refine ⟨found, hfound, hbind, fun heq => absurd heq (Nat.succ_ne_zero k), fun j before heq hbefore => ?_⟩
    obtain rfl : k = j := Nat.succ.inj heq
    cases k with
    | zero =>
      obtain rfl : first = before := Option.some.inj hbefore
      exact hfirst rfl
    | succ k => exact hnext k before rfl hbefore

theorem coders_spec : ∀ {indices : List CoderIndex} {coders : List SizedCoder} {input : OutputSize}
    {steps : List DecodeStep}, Linked input coders steps → Resolved env folder sizes indices coders →
    List.Forall₂ (fun index step => ∃ info output, folder.coders[index]? = some info ∧
      CoderPlan.compile env.memory info output = .ok step.coder ∧ output.Keeps step.output) indices steps
  | [], [], _, [], _, _ => .nil
  | index :: indices, coder :: coders, input, step :: steps, h, hresolved => by
    obtain ⟨⟨info, hinfo, hplan⟩, -, hrest⟩ := hresolved
    obtain ⟨hcoder, -, hkeeps, -⟩ := bindSize_eq_ok h.1
    exact .cons ⟨info, coder.output, hinfo, by rw [hcoder]; exact hplan, hkeeps⟩ (h.2.coders_spec hrest)

theorem kept : ∀ {indices : List CoderIndex} {coders : List SizedCoder} {input : OutputSize}
    {steps : List DecodeStep}, Linked input coders steps → Resolved env folder sizes indices coders →
    List.Forall₂ (fun index (step : DecodeStep) => (sizes.get index).Keeps step.output) indices steps
  | [], [], _, [], _, _ => .nil
  | index :: indices, coder :: coders, input, step :: steps, h, hresolved => by
    obtain ⟨-, hreconcile, hrest⟩ := hresolved
    obtain ⟨-, -, hkeeps, -⟩ := bindSize_eq_ok h.1
    exact .cons ((OutputSize.reconcile_spec hreconcile).1.trans hkeeps) (h.2.kept hrest)

theorem preserved : ∀ {indices : List CoderIndex} {coders : List SizedCoder} {input : OutputSize}
    {steps : List DecodeStep}, Linked input coders steps → Resolved env folder sizes indices coders →
    (input = .Unknown → demand coders = .Unknown) →
    ∀ step ∈ steps, step.coder.preservesSize = true → step.input = step.output
  | [], [], _, [], _, _, _, _, hmem, _ => (List.not_mem_nil hmem).elim
  | index :: indices, coder :: coders, input, first :: steps, h, hresolved, hdemand, step, hmem,
      hpreserves => by
    obtain ⟨-, hreconcile, hrest⟩ := hresolved
    obtain ⟨hcoder, hinput, hkeeps, hsame, hfrom⟩ := bindSize_eq_ok h.1
    rcases List.mem_cons.mp hmem with rfl | hmem
    · rw [hcoder] at hpreserves
      rw [hinput]
      cases hknown : input with
      | Known size => exact (hsame hpreserves size hknown).symm
      | Unknown =>
        have hnone := hdemand hknown
        rw [demand, if_pos hpreserves] at hnone
        rcases hfrom with heq | ⟨-, heq⟩
        · rw [heq, hnone]
        · rw [heq, hknown]
    · refine h.2.preserved hrest (fun hunknown => ?_) step hmem hpreserves
      cases hnext : demand coders with
      | Unknown => rfl
      | Known size =>
        have hgiven := hkeeps size ((OutputSize.reconcile_spec hreconcile).2.1 size hnext)
        rw [hgiven] at hunknown
        cases hunknown

theorem inferred_after (h : Linked input coders steps) (hresolved : Resolved env folder sizes indices coders)
    {packedSize : UInt64} {k : ℕ} {coder : SizedCoder} {size : UInt64} (hat : coders[k]? = some coder)
    (hknown : coder.output = .Known size) :
    ∃ j, recorded sizes packedSize indices j = .Known size ∧ PreservedBetween steps (k + 1) j := by
  have hdrop := hresolved.drop k
  obtain ⟨hlt, hcoder⟩ := List.getElem?_eq_some_iff.mp hat
  rw [List.drop_eq_getElem_cons hlt, hcoder] at hdrop
  obtain ⟨j, index, hindex, hrecorded, hbetween⟩ := hdrop.recorded_after hknown
  rw [List.getElem?_drop] at hindex
  refine ⟨k + j + 1, ?_, fun m step hstep hm => ?_⟩
  · rw [recorded, hindex]
    exact hrecorded
  · obtain ⟨later, hlater, hbind, -⟩ := h.bound hstep
    rw [(bindSize_eq_ok hbind).1]
    refine hbetween (m - (k + 1)) later (by omega) ?_
    rw [List.getElem?_drop, show k + 1 + (m - (k + 1)) = m by omega]
    exact hlater

theorem inferred {packedSize : UInt64} (h : Linked (.Known packedSize) coders steps)
    (hresolved : Resolved env folder sizes indices coders) :
    ∀ k step size, steps[k]? = some step → step.output = .Known size →
      ∃ j, recorded sizes packedSize indices j = .Known size ∧ PreservedBetween steps (k + 1) j := by
  intro k
  induction k with
  | zero =>
    intro step size hat hknown
    obtain ⟨coder, hcoder, hbind, hfirst, -⟩ := h.bound hat
    obtain ⟨hplan, -, -, -, hfrom⟩ := bindSize_eq_ok hbind
    rcases hfrom with hown | ⟨hpreserves, hinput⟩
    · exact h.inferred_after hresolved hcoder (hown.symm.trans hknown)
    · refine ⟨0, ?_, fun m found hfound hm => ?_⟩
      · rw [← hknown, hinput, hfirst rfl]
        rfl
      · obtain rfl : m = 0 := by omega
        obtain rfl : step = found := Option.some.inj (hat.symm.trans hfound)
        rw [hplan]
        exact hpreserves
  | succ k ih =>
    intro step size hat hknown
    obtain ⟨coder, hcoder, hbind, -, hnext⟩ := h.bound hat
    obtain ⟨hplan, -, -, -, hfrom⟩ := bindSize_eq_ok hbind
    rcases hfrom with hown | ⟨hpreserves, hinput⟩
    · exact h.inferred_after hresolved hcoder (hown.symm.trans hknown)
    · have hlt : k < steps.length := Nat.lt_of_succ_lt (List.getElem?_eq_some_iff.mp hat).1
      have hbefore := List.getElem?_eq_getElem hlt
      have hgiven := hnext k _ rfl hbefore
      obtain ⟨j, hrecorded, hbetween⟩ := ih _ size hbefore (by rw [← hgiven, ← hinput, hknown])
      refine ⟨j, hrecorded, fun m found hfound hm => ?_⟩
      rcases Nat.eq_or_lt_of_le (Nat.zero_le (m - (k + 1))) with hzero | hlater
      · rcases Nat.eq_or_lt_of_le (show m ≤ k + 1 by omega) with rfl | hless
        · obtain rfl : step = found := Option.some.inj (hat.symm.trans hfound)
          rw [hplan]
          exact hpreserves
        · exact hbetween m found hfound (.inr (by omega))
      · exact hbetween m found hfound (by omega)

end Linked

theorem chainSteps_sized {graph : FolderGraph} {packedSizes : List UInt64} {steps : List DecodeStep}
    (h : chainSteps env folder graph sizes packedSizes = .ok steps) : ∃ packedSize,
      packedSizes = [packedSize] ∧ SizedSteps env folder sizes packedSize graph.executionOrder steps := by
  unfold chainSteps at h
  split at h
  · rename_i packedSize
    obtain ⟨coders, hcoders, h⟩ := except_bind_eq_ok.mp h
    have hresolved := @sizeChain_resolved _ _ env folder sizes graph.executionOrder.reverse [] coders []
      hcoders trivial
    rw [List.reverse_reverse, List.append_nil, List.append_nil] at hresolved
    have hlinked := bindChain_linked h
    have hpreserved := hlinked.preserved hresolved fun hunknown => nomatch hunknown
    refine ⟨packedSize, rfl, hlinked.coders_spec hresolved, fun step hhead => ?_,
      fun k step following hat hnext => ?_, hpreserved, hlinked.kept hresolved, hlinked.inferred hresolved⟩
    · rw [List.head?_eq_getElem?] at hhead
      obtain ⟨coder, -, -, hfirst, -⟩ := hlinked.bound hhead
      exact hfirst rfl
    · obtain ⟨coder, -, -, -, hlink⟩ := hlinked.bound hnext
      exact hlink k step rfl hat
  · cases h

namespace SizedSteps

variable {packedSize : UInt64} {order : List CoderIndex} {steps : List DecodeStep}
  (h : SizedSteps env folder sizes packedSize order steps)

include h

theorem input_eq {k : ℕ} {step : DecodeStep} (hat : steps[k]? = some step) :
    step.input = atBoundary packedSize steps k := by
  cases k with
  | zero => exact h.first step (by rw [List.head?_eq_getElem?, hat])
  | succ k =>
    have hlt : k < steps.length := Nat.lt_of_succ_lt (List.getElem?_eq_some_iff.mp hat).1
    have hbefore := List.getElem?_eq_getElem hlt
    rw [atBoundary, hbefore]
    exact h.next k _ step hbefore hat

theorem recorded_keeps (k : ℕ) : (recorded sizes packedSize order k).Keeps (atBoundary packedSize steps k) := by
  cases k with
  | zero => exact .refl _
  | succ k =>
    intro size hsize
    rw [recorded] at hsize
    cases hindex : order[k]? with
    | none =>
      rw [hindex] at hsize
      cases hsize
    | some index =>
      rw [hindex] at hsize
      obtain ⟨hlt, hat⟩ := List.getElem?_eq_some_iff.mp hindex
      have hlt' : k < steps.length := h.kept.length_eq ▸ hlt
      have hkeeps := h.kept.get hlt hlt'
      rw [List.get_eq_getElem, hat] at hkeeps
      rw [atBoundary, List.getElem?_eq_getElem hlt']
      exact hkeeps size hsize

theorem atBoundary_eq {i : ℕ} : ∀ d, i + d ≤ steps.length →
    (∀ m step, steps[m]? = some step → i ≤ m → m < i + d → step.coder.preservesSize = true) →
    atBoundary packedSize steps (i + d) = atBoundary packedSize steps i
  | 0, _, _ => rfl
  | d + 1, hle, hpreserves => by
    have hat := List.getElem?_eq_getElem (show i + d < steps.length by omega)
    have hkeeps := hpreserves (i + d) _ hat (Nat.le_add_right i d) (Nat.lt_succ_self _)
    have hstep := h.preserved _ (List.mem_of_getElem? hat) hkeeps
    rw [h.input_eq hat] at hstep
    rw [← Nat.add_assoc, atBoundary, hat]
    exact hstep.symm.trans (atBoundary_eq d (by omega) fun m step hm hlo hhi =>
      hpreserves m step hm hlo (hhi.trans (Nat.lt_succ_self _)))

end SizedSteps

def Environment.Preserves (env : Environment ω δ) (info : CoderInfo) : Prop :=
  ∀ output plan, CoderPlan.compile env.memory info output = .ok plan → plan.preservesSize = true

/-- Sizes that are recorded on both sides of coders that keep the length, and differ, are refused. -/
theorem chainSteps_conflict {graph : FolderGraph} {packedSize a b : UInt64} {i j : ℕ} (hij : i < j)
    (ha : recorded sizes packedSize graph.executionOrder i = .Known a)
    (hb : recorded sizes packedSize graph.executionOrder j = .Known b) (hab : a ≠ b)
    (hpreserves : ∀ m index info, i ≤ m → m < j → graph.executionOrder[m]? = some index →
      folder.coders[index]? = some info → env.Preserves info) :
    ∃ e, chainSteps env folder graph sizes [packedSize] = .error e := by
  cases hsteps : chainSteps env folder graph sizes [packedSize] with
  | error e => exact ⟨e, rfl⟩
  | ok steps =>
    obtain ⟨_, hpacked, h⟩ := chainSteps_sized hsteps
    obtain rfl := List.singleton_inj.mp hpacked
    have hj : j ≤ steps.length := by
      rw [← h.kept.length_eq]
      by_contra hgt
      cases j with
      | zero => exact hgt (Nat.zero_le _)
      | succ j =>
        rw [recorded, List.getElem?_eq_none (by omega)] at hb
        cases hb
    obtain ⟨d, rfl⟩ := Nat.exists_eq_add_of_le hij.le
    have hsame := h.atBoundary_eq d hj fun m step hat hlo hhi => by
      obtain ⟨hlt, hstep⟩ := List.getElem?_eq_some_iff.mp hat
      have hlt' : m < graph.executionOrder.length := h.coders.length_eq ▸ hlt
      obtain ⟨info, output, hinfo, hplan, -⟩ := h.coders.get hlt' hlt
      rw [List.get_eq_getElem] at hinfo
      rw [List.get_eq_getElem, hstep] at hplan
      exact hpreserves m _ info hlo hhi (List.getElem?_eq_getElem hlt') hinfo output _ hplan
    have hkeepsA := h.recorded_keeps i a ha
    have hkeepsB := h.recorded_keeps (i + d) b hb
    rw [hsame, hkeepsA] at hkeepsB
    exact absurd (OutputSize.Known.inj hkeepsB) hab

theorem Folder.Simple.bcj2Layout {graph : FolderGraph} (h : folder.Simple)
    (hgraph : folder.graph = .ok graph) : graph.bcj2Layout folder = .ok none := by
  have hnone : FolderGraph.positions (fun coder : CoderInfo =>
      coder.codecId.bytes == SevenZMethod.id .Bcj2) folder.coders = [] := by
    unfold FolderGraph.positions
    refine List.map_eq_nil_iff.mpr (List.filter_eq_nil_iff.mpr fun item hitem hid => ?_)
    have hcoder := List.mem_of_getElem? (List.mem_zipIdx_iff_getElem?.mp hitem)
    have harity := (Folder.graph_ok_iff.mp ⟨graph, hgraph⟩).arity _ hcoder
    have hmethod := harity.method .Bcj2 (by rw [eq_of_beq hid]; decide)
    rw [(h _ hcoder).1, (h _ hcoder).2] at hmethod
    exact absurd hmethod (by decide)
  unfold FolderGraph.bcj2Layout
  rw [hnone]

theorem Folder.Simple.planTopology {graph : FolderGraph} (h : folder.Simple)
    (hgraph : folder.graph = .ok graph) {unpackSize : UInt64} {packedSizes : List UInt64}
    {topology : Topology} {memory : ℕ}
    (hplan : R7z.planTopology env folder graph unpackSize sizes packedSizes = .ok (topology, memory)) :
    ∃ steps, topology = .Chain steps ∧ chainSteps env folder graph sizes packedSizes = .ok steps := by
  unfold R7z.planTopology at hplan
  split at hplan
  · cases hplan
  split at hplan
  · cases hplan
  obtain ⟨kind, hkind, hplan⟩ := except_bind_eq_ok.mp hplan
  have hchain : kind = .Chain := by
    unfold decoderTopology at hkind
    rw [h.bcj2Layout hgraph] at hkind
    obtain ⟨found, hfound, hkind⟩ := except_bind_eq_ok.mp hkind
    obtain rfl := Except.ok.inj hfound
    dsimp only at hkind
    split at hkind
    · cases hkind
    · split at hkind
      · exact (Except.ok.inj hkind).symm
      · cases hkind
  rw [hchain] at hplan
  obtain ⟨steps, hsteps, hplan⟩ := except_bind_eq_ok.mp hplan
  obtain ⟨total, -, hplan⟩ := except_bind_eq_ok.mp hplan
  exact ⟨steps, (Prod.mk.inj (Except.ok.inj hplan)).1.symm, hsteps⟩

/-- A folder of coders with one input and one output runs along the data, whatever the numbers of its
coders and the order of its bind pairs. When its steps are planned from the sizes that are given, all or
some, they are its coders in that order; what is given stays, what is left out comes from neighbours
across coders that keep the length, and sizes that differ across such coders are refused. -/
theorem chain_follows_data (env : Environment ω δ) {folder : Folder} {graph : FolderGraph}
    (hgraph : folder.graph = .ok graph) (hsimple : folder.Simple) {finalSize : UInt64}
    {declared : List UInt64} {sizes : CoderOutputSizes}
    (hsizes : CoderOutputSizes.ofPartial folder graph finalSize declared = .ok sizes ∨
      CoderOutputSizes.complete folder graph finalSize declared = .ok sizes) :
    folder.FollowsData graph ∧ sizes.Reads graph finalSize declared ∧
    (∀ unpackSize packedSizes topology memory,
      planTopology env folder graph unpackSize sizes packedSizes = .ok (topology, memory) →
        ∃ steps, topology = .Chain steps ∧ chainSteps env folder graph sizes packedSizes = .ok steps) ∧
    (∀ packedSizes steps, chainSteps env folder graph sizes packedSizes = .ok steps → ∃ packedSize,
      packedSizes = [packedSize] ∧ SizedSteps env folder sizes packedSize graph.executionOrder steps) ∧
    ∀ packedSize a b i j, i < j → recorded sizes packedSize graph.executionOrder i = .Known a →
      recorded sizes packedSize graph.executionOrder j = .Known b → a ≠ b →
      (∀ m index info, i ≤ m → m < j → graph.executionOrder[m]? = some index →
        folder.coders[index]? = some info → env.Preserves info) →
      ∃ e, chainSteps env folder graph sizes [packedSize] = .error e := by
  refine ⟨hsimple.followsData hgraph, ?_, fun _ _ _ _ => hsimple.planTopology hgraph,
    fun _ _ => chainSteps_sized, fun _ _ _ _ _ => chainSteps_conflict⟩
  rcases hsizes with hsizes | hsizes
  · exact CoderOutputSizes.reads_of_ok hsizes
  · rw [CoderOutputSizes.complete_eq] at hsizes
    split at hsizes
    · cases hsizes
    · exact CoderOutputSizes.reads_of_ok hsizes

end

/-- The second of two copying coders runs first; its size is left out. -/
theorem chain_follows_two :
    SizedSteps unreadable Folder.twoCoders ⟨[], 0, 5⟩ 5 [1, 0]
      [⟨.Copy, .Known 5, .Known 5⟩, ⟨.Copy, .Known 5, .Known 5⟩] ∧
    ∃ e, chainSteps unreadable Folder.twoCoders ⟨[1, 0], [1], 0, [0, 1], [0, 1], [some 1, none]⟩
      ⟨[], 0, 5⟩ [6] = .error e := by
  have hgraph : Folder.twoCoders.graph = .ok ⟨[1, 0], [1], 0, [0, 1], [0, 1], [some 1, none]⟩ := by
    decide +kernel
  obtain ⟨-, -, -, hsteps, hconflict⟩ := @chain_follows_data Unit Unit unreadable Folder.twoCoders _ hgraph
    (by decide) 5 [] ⟨[], 0, 5⟩ (.inl (by decide +kernel))
  refine ⟨?_, hconflict 6 6 5 0 2 (by decide) rfl rfl (by decide)
    fun _ _ _ _ _ _ hinfo output plan hplan => ?_⟩
  · obtain ⟨packedSize, hpacked, hsized⟩ := hsteps [5]
      [⟨.Copy, .Known 5, .Known 5⟩, ⟨.Copy, .Known 5, .Known 5⟩] (by decide +kernel)
    obtain rfl := List.singleton_inj.mp hpacked
    exact hsized
  · obtain rfl := List.eq_of_mem_replicate (List.mem_of_getElem? hinfo)
    obtain rfl : CoderPlan.Copy = plan := Except.ok.inj hplan
    rfl

end R7z
