import R7z.Decode.Plan
import R7z.GraphOrder

/-! The layout of a folder whose coders join in BCJ2: the walks back from its inputs end, what they meet
makes up the folder, and they share the packed streams out among themselves. -/

namespace R7z

open Wire

/-! One turn of a walk -/

namespace FolderGraph

variable (graph : FolderGraph) (folder : Folder) (bcj2 : CoderIndex)

def channelTurn (input : InputStreamIndex) :
    Except R7zError (PackedStreamIndex ⊕ Bcj2Coder × InputStreamIndex) := do
  match ← orInvalid graph.inputSources[input]? with
  | none => do
    let packed ← orInvalid (graph.packedInputs.idxOf? input)
    return .inl packed
  | some output => do
    let coder ← orInvalid graph.outputOwners[output]?
    let info ← orInvalid folder.coders[coder]?
    let arity ← StreamArity.tryFrom info
    if coder = bcj2 ∨ arity.inputs ≠ 1 ∨ arity.outputs ≠ 1 then .error .invalidFolderGraph
    else do
      let input ← orInvalid (graph.inputOwners.idxOf? coder)
      return .inr ({ index := coder, output }, input)

/-- A walk without any bound: the coders it meets, and how it ends. -/
inductive Walk : InputStreamIndex → List Bcj2Coder → Except R7zError PackedStreamIndex → Prop where
  | packed {input : InputStreamIndex} {packed : PackedStreamIndex}
      (h : graph.channelTurn folder bcj2 input = .ok (.inl packed)) : Walk input [] (.ok packed)
  | fails {input : InputStreamIndex} {e : R7zError}
      (h : graph.channelTurn folder bcj2 input = .error e) : Walk input [] (.error e)
  | passes {input next : InputStreamIndex} {coder : Bcj2Coder} {coders : List Bcj2Coder}
      {result : Except R7zError PackedStreamIndex}
      (h : graph.channelTurn folder bcj2 input = .ok (.inr (coder, next)))
      (rest : Walk next coders result) : Walk input (coder :: coders) result

variable {graph folder bcj2}

theorem bcj2Channel_succ (turns : ℕ) (input : InputStreamIndex) (coders : List Bcj2Coder) :
    graph.bcj2Channel folder bcj2 (turns + 1) input coders =
      graph.channelTurn folder bcj2 input >>= fun
        | .inl packed => .ok { coders := coders.reverse, packed }
        | .inr (coder, next) => graph.bcj2Channel folder bcj2 turns next (coders ++ [coder]) := by
  conv_lhs => unfold bcj2Channel
  unfold channelTurn
  cases orInvalid graph.inputSources[input]? with
  | error e => rfl
  | ok source =>
    cases source with
    | none =>
      show (orInvalid (graph.packedInputs.idxOf? input) >>= _) = _
      cases orInvalid (graph.packedInputs.idxOf? input) with
      | error e => rfl
      | ok packed => rfl
    | some output =>
      show (orInvalid graph.outputOwners[output]? >>= _) = ((orInvalid graph.outputOwners[output]? >>= _) >>= _)
      cases orInvalid graph.outputOwners[output]? with
      | error e => rfl
      | ok coder =>
        show (orInvalid folder.coders[coder]? >>= _) = ((orInvalid folder.coders[coder]? >>= _) >>= _)
        cases orInvalid folder.coders[coder]? with
        | error e => rfl
        | ok info =>
          show (StreamArity.tryFrom info >>= _) = ((StreamArity.tryFrom info >>= _) >>= _)
          cases StreamArity.tryFrom info with
          | error e => rfl
          | ok arity =>
            show (if _ then _ else _) = ((if _ then _ else _) >>= _)
            split
            · rfl
            · show (orInvalid (graph.inputOwners.idxOf? coder) >>= _) = _
              cases orInvalid (graph.inputOwners.idxOf? coder) with
              | error e => rfl
              | ok next => rfl

/-- With a turn for every coder and one more the bound does not matter. -/
theorem Walk.channel {input : InputStreamIndex} {coders : List Bcj2Coder}
    {result : Except R7zError PackedStreamIndex} (h : graph.Walk folder bcj2 input coders result) :
    ∀ {turns : ℕ} (before : List Bcj2Coder), coders.length < turns →
      graph.bcj2Channel folder bcj2 turns input before =
        result.map fun packed => { coders := (before ++ coders).reverse, packed } := by
  induction h with
  | packed h =>
    intro turns before hturns
    obtain ⟨turns, rfl⟩ := Nat.exists_eq_add_of_lt hturns
    rw [bcj2Channel_succ, h, List.append_nil]
    rfl
  | fails h =>
    intro turns before hturns
    obtain ⟨turns, rfl⟩ := Nat.exists_eq_add_of_lt hturns
    rw [bcj2Channel_succ, h]
    rfl
  | @passes input next coder coders result h rest ih =>
    intro turns before hturns
    obtain ⟨turns, rfl⟩ := Nat.exists_eq_add_of_lt hturns
    rw [bcj2Channel_succ, h]
    have hrest := @ih ((coder :: coders).length + turns) (before ++ [coder]) (by
      rw [List.length_cons]
      omega)
    rw [List.append_assoc, List.singleton_append] at hrest
    exact hrest

/-! What a turn meets -/

theorem idxOf?_eq_some {α : Type} [DecidableEq α] {l : List α} {a : α} {i : ℕ} (h : l.idxOf? a = some i) :
    l[i]? = some a := by
  obtain ⟨hlt, hat, -⟩ := List.findIdx?_eq_some_iff_getElem.mp h
  rw [List.getElem?_eq_getElem hlt, beq_iff_eq.mp hat]

structure Passed (folder : Folder) (bcj2 : CoderIndex) (input next : InputStreamIndex)
    (coder : Bcj2Coder) : Prop where
  ne : coder.index ≠ bcj2
  bound : ∃ pair ∈ folder.bindPairs, pair.1.toNat = input ∧ pair.2.toNat = coder.output
  output : folder.outputOwners[coder.output]? = some coder.index
  next : folder.inputOwners[next]? = some coder.index
  simple : ∃ info, folder.coders[coder.index]? = some info ∧ info.numInStreams.toNat = 1

section
variable (h : folder.graph = .ok graph)
include h

theorem channelTurn_packed {input : InputStreamIndex} {packed : PackedStreamIndex}
    (hturn : graph.channelTurn folder bcj2 input = .ok (.inl packed)) :
    input ∈ folder.freeInputs ∧ graph.packedInputs[packed]? = some input := by
  obtain ⟨-, htables⟩ := Folder.graph_spec h
  unfold channelTurn at hturn
  obtain ⟨source, hsource, hturn⟩ := except_bind_eq_ok.mp hturn
  have hsource := orInvalid_eq_ok.mp hsource
  rw [htables.inputSources] at hsource
  cases source with
  | some output =>
    obtain ⟨coder, -, hturn⟩ := except_bind_eq_ok.mp hturn
    obtain ⟨info, -, hturn⟩ := except_bind_eq_ok.mp hturn
    obtain ⟨arity, -, hturn⟩ := except_bind_eq_ok.mp hturn
    split at hturn
    · cases hturn
    · obtain ⟨next, -, hturn⟩ := except_bind_eq_ok.mp hturn
      cases hturn
  | none =>
    obtain ⟨slot, hslot, hturn⟩ := except_bind_eq_ok.mp hturn
    obtain rfl : slot = packed := Sum.inl.inj (Except.ok.inj hturn)
    refine ⟨?_, idxOf?_eq_some (orInvalid_eq_ok.mp hslot)⟩
    have hlt : input < folder.totalInStreams := by
      obtain ⟨hlt, -⟩ := List.getElem?_eq_some_iff.mp hsource
      rwa [List.length_map, List.length_range] at hlt
    rw [getElem?_map_range _ hlt] at hsource
    have hnone : folder.bindPairs.find? (fun pair => pair.1.toNat = input) = none :=
      Option.map_eq_none_iff.mp (Option.some.inj hsource)
    refine List.mem_filter.mpr ⟨List.mem_range.mpr hlt, decide_eq_true fun hmem => ?_⟩
    obtain ⟨pair, hpair, heq⟩ := List.mem_map.mp hmem
    exact List.find?_eq_none.mp hnone pair hpair (decide_eq_true heq)

theorem channelTurn_passed {input next : InputStreamIndex} {coder : Bcj2Coder}
    (hturn : graph.channelTurn folder bcj2 input = .ok (.inr (coder, next))) :
    Passed folder bcj2 input next coder := by
  obtain ⟨-, htables⟩ := Folder.graph_spec h
  unfold channelTurn at hturn
  obtain ⟨source, hsource, hturn⟩ := except_bind_eq_ok.mp hturn
  have hsource := orInvalid_eq_ok.mp hsource
  rw [htables.inputSources] at hsource
  cases source with
  | none =>
    obtain ⟨slot, -, hturn⟩ := except_bind_eq_ok.mp hturn
    cases hturn
  | some output =>
    obtain ⟨index, hindex, hturn⟩ := except_bind_eq_ok.mp hturn
    obtain ⟨info, hinfo, hturn⟩ := except_bind_eq_ok.mp hturn
    obtain ⟨arity, harity, hturn⟩ := except_bind_eq_ok.mp hturn
    split at hturn
    · cases hturn
    rename_i hsimple
    rw [not_or, not_or, not_not, not_not] at hsimple
    obtain ⟨input', hinput', hturn⟩ := except_bind_eq_ok.mp hturn
    obtain ⟨hcoder, hnext⟩ := Prod.mk.inj (Sum.inr.inj (Except.ok.inj hturn))
    rw [← hcoder, ← hnext]
    have hlt : input < folder.totalInStreams := by
      obtain ⟨hlt, -⟩ := List.getElem?_eq_some_iff.mp hsource
      rwa [List.length_map, List.length_range] at hlt
    rw [getElem?_map_range _ hlt] at hsource
    obtain ⟨pair, hfind, houtput⟩ := Option.map_eq_some_iff.mp (Option.some.inj hsource)
    have hindex := orInvalid_eq_ok.mp hindex
    have hinput' := idxOf?_eq_some (orInvalid_eq_ok.mp hinput')
    rw [htables.outputOwners] at hindex
    rw [htables.inputOwners] at hinput'
    obtain ⟨-, hcount⟩ := StreamArity.tryFrom_eq_ok.mp harity
    refine ⟨hsimple.1, ⟨pair, List.mem_of_find?_eq_some hfind, ?_, houtput⟩, hindex, hinput',
      info, orInvalid_eq_ok.mp hinfo, ?_⟩
    · have hmatch := List.find?_some hfind
      simpa using hmatch
    · have hinputs := hsimple.2.1
      rw [hcount] at hinputs
      exact hinputs

/-- Every walk ends, since a coder stands behind those that feed it. -/
theorem walk_exists (bcj2 : CoderIndex) : ∀ k input, (∀ c, folder.inputOwners[input]? = some c →
    graph.executionOrder.idxOf c ≤ k) →
      ∃ coders result, graph.Walk folder bcj2 input coders result ∧ coders.length ≤ k := by
  obtain ⟨hdescribes, -⟩ := Folder.graph_spec h
  have hvalid := Folder.graph_ok_iff.mp ⟨graph, h⟩
  have hrange : folder.InRange := hvalid.inRange
  intro k
  induction k with
  | zero =>
    intro input howner
    rcases hturn : graph.channelTurn folder bcj2 input with e | packed | ⟨coder, next⟩
    · exact ⟨[], _, .fails hturn, le_rfl⟩
    · exact ⟨[], _, .packed hturn, le_rfl⟩
    · obtain ⟨-, ⟨pair, hpair, rfl, hout⟩, houtput, -, -⟩ := channelTurn_passed h hturn
      have htarget := hrange.target hpair
      have hmem := hdescribes.perm.mem_iff.mpr (List.mem_range.mpr (hrange.target_lt hpair))
      have hlt := hdescribes.ordered.idxOf_lt hmem ⟨pair, hpair, by rw [hout]; exact houtput, htarget⟩
      have hle := howner _ htarget
      omega
  | succ k ih =>
    intro input howner
    rcases hturn : graph.channelTurn folder bcj2 input with e | packed | ⟨coder, next⟩
    · exact ⟨[], _, .fails hturn, Nat.zero_le _⟩
    · exact ⟨[], _, .packed hturn, Nat.zero_le _⟩
    · obtain ⟨-, ⟨pair, hpair, rfl, hout⟩, houtput, hnext, -⟩ := channelTurn_passed h hturn
      have htarget := hrange.target hpair
      have hmem := hdescribes.perm.mem_iff.mpr (List.mem_range.mpr (hrange.target_lt hpair))
      have hlt := hdescribes.ordered.idxOf_lt hmem ⟨pair, hpair, by rw [hout]; exact houtput, htarget⟩
      have hle := howner _ htarget
      obtain ⟨coders, result, hwalk, hlen⟩ := ih next fun c hc => by
        rw [hnext] at hc
        rw [← Option.some.inj hc]
        omega
      exact ⟨coder :: coders, result, .passes hturn hwalk, Nat.succ_le_succ hlen⟩

theorem bcj2Channel_walk (bcj2 : CoderIndex) (input : InputStreamIndex) : ∃ coders result,
    graph.Walk folder bcj2 input coders result ∧
      graph.bcj2Channel folder bcj2 (folder.coders.length + 1) input [] =
        result.map fun packed => { coders := coders.reverse, packed } := by
  obtain ⟨hdescribes, -⟩ := Folder.graph_spec h
  obtain ⟨coders, result, hwalk, hlen⟩ := walk_exists h bcj2 folder.coders.length input fun c _ => by
    have hle := List.idxOf_le_length (a := c) (l := graph.executionOrder)
    rwa [hdescribes.perm.length_eq, List.length_range] at hle
  exact ⟨coders, result, hwalk, hwalk.channel [] (Nat.lt_succ_of_le hlen)⟩

end

end FolderGraph

/-! Channels -/

/-- The data goes through the coders one after the other, from an input of the first to `target`. -/
def Folder.Flows (folder : Folder) : InputStreamIndex → List Bcj2Coder → InputStreamIndex → Prop
  | input, [], target => input = target
  | input, coder :: coders, target =>
    folder.inputOwners[input]? = some coder.index ∧
      folder.outputOwners[coder.output]? = some coder.index ∧
      ∃ pair ∈ folder.bindPairs, pair.2.toNat = coder.output ∧
        folder.Flows pair.1.toNat coders target

structure Bcj2Channel.Carries (channel : Bcj2Channel) (graph : FolderGraph) (folder : Folder)
    (bcj2 : CoderIndex) (target start : InputStreamIndex) : Prop where
  packed : graph.packedInputs[channel.packed]? = some start
  free : start ∈ folder.freeInputs
  flows : folder.Flows start channel.coders target
  others : ∀ coder ∈ channel.coders, coder.index ≠ bcj2 ∧
    ∃ info, folder.coders[coder.index]? = some info ∧ info.numInStreams.toNat = 1

namespace Folder

def SoleInput (folder : Folder) (c : CoderIndex) : Prop :=
  ∀ j k : ℕ, folder.inputOwners[j]? = some c → folder.inputOwners[k]? = some c → j = k

variable {folder : Folder}

theorem Flows.snoc : ∀ {coders : List Bcj2Coder} {start next : InputStreamIndex} {coder : Bcj2Coder}
    {pair : UInt64 × UInt64}, folder.Flows start coders next →
    folder.inputOwners[next]? = some coder.index → folder.outputOwners[coder.output]? = some coder.index →
    pair ∈ folder.bindPairs → pair.2.toNat = coder.output →
      folder.Flows start (coders ++ [coder]) pair.1.toNat
  | [], start, next, coder, pair, hflows, hnext, houtput, hpair, hbound => by
    obtain rfl : start = next := hflows
    exact ⟨hnext, houtput, pair, hpair, hbound, rfl⟩
  | first :: coders, start, next, coder, pair, hflows, hnext, houtput, hpair, hbound => by
    obtain ⟨hstart, hfirst, via, hvia, hout, hrest⟩ := hflows
    exact ⟨hstart, hfirst, via, hvia, hout, hrest.snoc hnext houtput hpair hbound⟩

theorem Flows.of_free : ∀ {coders : List Bcj2Coder} {start target : InputStreamIndex},
    folder.Flows start coders target → target ∈ folder.freeInputs → coders = []
  | [], _, _, _, _ => rfl
  | coder :: coders, start, target, hflows, hfree => by
    obtain ⟨-, -, pair, hpair, -, hrest⟩ := hflows
    have hnil := hrest.of_free hfree
    subst hnil
    obtain rfl : pair.1.toNat = target := hrest
    exact absurd (List.mem_map.mpr ⟨pair, hpair, rfl⟩) (of_decide_eq_true (List.mem_filter.mp hfree).2)

theorem Flows.start_of_free : ∀ {coders : List Bcj2Coder} {start target i : InputStreamIndex},
    folder.Flows start coders target → i ∈ folder.freeInputs →
    ∀ coder ∈ coders, folder.SoleInput coder.index →
    folder.inputOwners[i]? = some coder.index → i = start
  | [], _, _, _, _, _, _, hmem, _, _ => (List.not_mem_nil hmem).elim
  | first :: coders, start, target, i, hflows, hfree, coder, hmem, honly, hi => by
    obtain ⟨hstart, -, pair, hpair, -, hrest⟩ := hflows
    rcases List.mem_cons.mp hmem with rfl | hmem
    · exact honly i start hi hstart
    · have hbound := hrest.start_of_free hfree coder hmem honly hi
      rw [hbound] at hfree
      exact absurd (List.mem_map.mpr ⟨pair, hpair, rfl⟩) (of_decide_eq_true (List.mem_filter.mp hfree).2)

end Folder

theorem FolderGraph.Walk.carries {graph : FolderGraph} {folder : Folder} (h : folder.graph = .ok graph)
    {bcj2 : CoderIndex} {input : InputStreamIndex} {coders : List Bcj2Coder}
    {result : Except R7zError PackedStreamIndex} (hwalk : graph.Walk folder bcj2 input coders result) :
    ∀ {packed}, result = .ok packed → ∃ start,
      ({ coders := coders.reverse, packed } : Bcj2Channel).Carries graph folder bcj2 input start := by
  induction hwalk with
  | packed hturn =>
    intro packed hresult
    obtain rfl := Except.ok.inj hresult
    obtain ⟨hfree, hpacked⟩ := channelTurn_packed h hturn
    exact ⟨_, hpacked, hfree, rfl, fun _ hc => (List.not_mem_nil hc).elim⟩
  | fails hturn =>
    intro packed hresult
    cases hresult
  | @passes input next coder coders result hturn rest ih =>
    intro packed hresult
    obtain ⟨start, hpacked, hfree, hflows, hothers⟩ := ih hresult
    obtain ⟨hne, ⟨pair, hpair, rfl, hbound⟩, houtput, hnext, hsimple⟩ := channelTurn_passed h hturn
    refine ⟨start, hpacked, hfree, ?_, fun c hc => ?_⟩
    · show folder.Flows start (coder :: coders).reverse pair.1.toNat
      rw [List.reverse_cons]
      exact hflows.snoc hnext houtput hpair hbound
    · rcases List.mem_cons.mp (List.mem_reverse.mp hc) with rfl | hc
      · exact ⟨hne, hsimple⟩
      · exact hothers c (List.mem_reverse.mpr hc)

/-! The positions of a coder's inputs -/

namespace FolderGraph

theorem mem_positions {α : Type} {p : α → Bool} {l : List α} {i : ℕ} :
    i ∈ positions p l ↔ ∃ a, l[i]? = some a ∧ p a = true := by
  unfold positions
  constructor
  · intro hi
    obtain ⟨⟨a, j⟩, hmem, rfl⟩ := List.mem_map.mp hi
    obtain ⟨hmem, hp⟩ := List.mem_filter.mp hmem
    exact ⟨a, List.mem_zipIdx_iff_getElem?.mp hmem, hp⟩
  · rintro ⟨a, hat, hp⟩
    exact List.mem_map.mpr ⟨(a, i), List.mem_filter.mpr ⟨List.mem_zipIdx_iff_getElem?.mpr hat, hp⟩, rfl⟩

theorem positions_nodup {α : Type} (p : α → Bool) (l : List α) : (positions p l).Nodup := by
  have hsub : List.Sublist (positions p l) (l.zipIdx.map Prod.snd) :=
    (List.filter_sublist).map Prod.snd
  refine hsub.nodup ?_
  rw [List.zipIdx_map_snd]
  exact List.nodup_range'

theorem length_positions {α : Type} (p : α → Bool) (l : List α) : (positions p l).length = l.countP p := by
  unfold positions
  rw [List.length_map, ← List.countP_eq_length_filter]
  conv_rhs => rw [← List.zipIdx_map_fst 0 l, List.countP_map]
  rfl

end FolderGraph

theorem count_copies {α : Type} (size : α → ℕ) {coders : List α} {coder : α} {k c : ℕ} (hk : k ≤ c)
    (hat : coders[c - k]? = some coder) :
    ((coders.zipIdx k).flatMap fun p => List.replicate (size p.1) p.2).count c = size coder := by
  induction coders generalizing k with
  | nil => cases hat
  | cons first coders ih =>
    rw [List.zipIdx_cons, List.flatMap_cons, List.count_append, List.count_replicate]
    rcases Nat.eq_or_lt_of_le hk with rfl | hlt
    · rw [Nat.sub_self] at hat
      obtain rfl : first = coder := Option.some.inj hat
      have hnone : ((coders.zipIdx (k + 1)).flatMap fun p => List.replicate (size p.1) p.2).count k = 0 := by
        rw [List.count_eq_zero]
        intro hmem
        obtain ⟨-, hle, -⟩ := (mem_copies size).mp hmem
        omega
      rw [hnone, if_pos (beq_self_eq_true _), Nat.add_zero]
    · rw [show c - k = c - (k + 1) + 1 by omega, List.getElem?_cons_succ] at hat
      rw [if_neg (by simpa using hlt.ne), Nat.zero_add]
      exact ih hlt hat

theorem Folder.soleInput {folder : Folder} {c : CoderIndex} {info : CoderInfo}
    (hat : folder.coders[c]? = some info) (hone : info.numInStreams.toNat = 1) : folder.SoleInput c := by
  have hcount : folder.inputOwners.count c = 1 :=
    (count_copies (fun c : CoderInfo => c.numInStreams.toNat) (Nat.zero_le c) hat).trans hone
  have hlen : (FolderGraph.positions (· == c) folder.inputOwners).length = 1 := by
    rw [FolderGraph.length_positions]
    exact hcount
  obtain ⟨i, hi⟩ := List.length_eq_one_iff.mp hlen
  have hall : ∀ j : ℕ, folder.inputOwners[j]? = some c → j = i := by
    intro j hj
    have hmem : j ∈ FolderGraph.positions (· == c) folder.inputOwners :=
      FolderGraph.mem_positions.mpr ⟨c, hj, beq_self_eq_true c⟩
    rw [hi] at hmem
    exact List.mem_singleton.mp hmem
  exact fun j k hj hk => (hall j hj).trans (hall k hk).symm

/-! The layout -/

def Bcj2Layout.channels (layout : Bcj2Layout) : List Bcj2Channel :=
  [layout.main, layout.call, layout.jump, layout.control]

def Bcj2Layout.coderIndices (layout : Bcj2Layout) : List CoderIndex :=
  layout.channels.flatMap fun channel => channel.coders.map Bcj2Coder.index

/-- The layout describes its folder: a coder BCJ2 at the end, a channel for each of its four inputs,
every other coder in one of them, and every packed stream before one of them. -/
structure Bcj2Layout.Sound (layout : Bcj2Layout) (graph : FolderGraph) (folder : Folder)
    (bcj2 : CoderIndex) (inputs : List InputStreamIndex) : Prop where
  method : ∃ coder, folder.coders[bcj2]? = some coder ∧ coder.codecId.bytes = SevenZMethod.id .Bcj2
  last : folder.outputOwners[graph.finalOutput]? = some bcj2
  inputs_eq : inputs = FolderGraph.positions (· == bcj2) folder.inputOwners
  carries : List.Forall₂ (fun channel input => ∃ start, channel.Carries graph folder bcj2 input start)
    layout.channels inputs
  coders : (bcj2 :: layout.coderIndices).Perm (List.range folder.coders.length)
  slots : (layout.channels.map Bcj2Channel.packed).Perm (List.range graph.packedStreamCount)

namespace Bcj2Channel

variable {graph : FolderGraph} {folder : Folder} {bcj2 : CoderIndex}

/-- Channels with a common start are the same, or share a coder. -/
theorem Carries.target_eq {a b : Bcj2Channel} {i j start : InputStreamIndex}
    (ha : a.Carries graph folder bcj2 i start) (hb : b.Carries graph folder bcj2 j start)
    (hi : folder.inputOwners[i]? = some bcj2) (hj : folder.inputOwners[j]? = some bcj2)
    (hdisjoint : (a.coders.map Bcj2Coder.index).Disjoint (b.coders.map Bcj2Coder.index)) : i = j := by
  have hfa := ha.flows
  have hfb := hb.flows
  cases hca : a.coders with
  | nil =>
    rw [hca] at hfa
    obtain rfl : start = i := hfa
    cases hcb : b.coders with
    | nil =>
      rw [hcb] at hfb
      exact hfb
    | cons coder coders =>
      rw [hcb] at hfb
      have hne := (hb.others coder (by rw [hcb]; exact List.mem_cons_self ..)).1
      rw [hfb.1] at hi
      exact absurd (Option.some.inj hi) hne
  | cons coder coders =>
    rw [hca] at hfa
    cases hcb : b.coders with
    | nil =>
      rw [hcb] at hfb
      obtain rfl : start = j := hfb
      have hne := (ha.others coder (by rw [hca]; exact List.mem_cons_self ..)).1
      rw [hfa.1] at hj
      exact absurd (Option.some.inj hj) hne
    | cons coder' coders' =>
      rw [hcb] at hfb
      have hsame : coder.index = coder'.index := Option.some.inj (hfa.1.symm.trans hfb.1)
      rw [hca, hcb, List.map_cons, List.map_cons, hsame] at hdisjoint
      exact (hdisjoint (List.mem_cons_self ..) (List.mem_cons_self ..)).elim

theorem slots_nodup : ∀ {channels : List Bcj2Channel} {inputs : List InputStreamIndex},
    List.Forall₂ (fun channel input => ∃ start, Carries channel graph folder bcj2 input start)
      channels inputs →
    (channels.flatMap fun channel => channel.coders.map Bcj2Coder.index).Nodup → inputs.Nodup →
    (∀ i ∈ inputs, folder.inputOwners[i]? = some bcj2) → (channels.map Bcj2Channel.packed).Nodup
  | [], _, _, _, _, _ => List.nodup_nil
  | channel :: channels, _, hall, hcoders, hinputs, howners => by
    cases hall with
    | @cons _ i _ inputs hfirst hrest =>
      obtain ⟨start, hcarries⟩ := hfirst
      rw [List.flatMap_cons] at hcoders
      obtain ⟨hnot, hinputs⟩ := List.nodup_cons.mp hinputs
      rw [List.map_cons, List.nodup_cons]
      refine ⟨fun hmem => ?_, slots_nodup hrest (List.nodup_append.mp hcoders).2.1 hinputs
        fun j hj => howners j (List.mem_cons_of_mem _ hj)⟩
      obtain ⟨other, hother, hpacked⟩ := List.mem_map.mp hmem
      obtain ⟨j, hj, start', hcarries'⟩ := exists_related hrest hother
      have hstart : start' = start := by
        have hslot := hcarries'.packed
        rw [hpacked, hcarries.packed] at hslot
        exact (Option.some.inj hslot).symm
      rw [hstart] at hcarries'
      have hdisjoint : (channel.coders.map Bcj2Coder.index).Disjoint (other.coders.map Bcj2Coder.index) := by
        intro c hc hc'
        exact List.disjoint_of_nodup_append hcoders hc (List.mem_flatMap.mpr ⟨other, hother, hc'⟩)
      have hsame := hcarries.target_eq hcarries' (howners i (List.mem_cons_self ..))
        (howners j (List.mem_cons_of_mem _ hj)) hdisjoint
      exact hnot (hsame ▸ hj)

theorem exists_start {channels : List Bcj2Channel} {inputs : List InputStreamIndex}
    {i : InputStreamIndex} {c : CoderIndex}
    (hall : List.Forall₂ (fun channel input => ∃ start, Carries channel graph folder bcj2 input start)
      channels inputs)
    (hinputs : inputs = FolderGraph.positions (· == bcj2) folder.inputOwners)
    (hfree : i ∈ folder.freeInputs) (howner : folder.inputOwners[i]? = some c)
    (hc : c = bcj2 ∨ c ∈ channels.flatMap fun channel => channel.coders.map Bcj2Coder.index) :
    ∃ channel ∈ channels, graph.packedInputs[channel.packed]? = some i := by
  rcases hc with rfl | hc
  · have hmem : i ∈ inputs := by
      rw [hinputs]
      exact FolderGraph.mem_positions.mpr ⟨c, howner, beq_self_eq_true c⟩
    obtain ⟨channel, hchannel, start, hcarries⟩ := exists_related hall.flip hmem
    have hflows := hcarries.flows
    rw [hflows.of_free hfree] at hflows
    obtain rfl : start = i := hflows
    exact ⟨channel, hchannel, hcarries.packed⟩
  · obtain ⟨channel, hchannel, hc⟩ := List.mem_flatMap.mp hc
    obtain ⟨coder, hcoder, rfl⟩ := List.mem_map.mp hc
    obtain ⟨target, -, start, hcarries⟩ := exists_related hall hchannel
    obtain ⟨-, info, hinfo, hone⟩ := hcarries.others coder hcoder
    have hstart := hcarries.flows.start_of_free hfree coder hcoder (Folder.soleInput hinfo hone) howner
    exact ⟨channel, hchannel, by rw [hstart]; exact hcarries.packed⟩

theorem Carries.coder_lt {channel : Bcj2Channel} {input start : InputStreamIndex}
    (h : channel.Carries graph folder bcj2 input start) {coder : Bcj2Coder} (hc : coder ∈ channel.coders) :
    coder.index < folder.coders.length := by
  obtain ⟨-, info, hinfo, -⟩ := h.others coder hc
  exact (List.getElem?_eq_some_iff.mp hinfo).1

end Bcj2Channel

namespace FolderGraph

variable {graph : FolderGraph} {folder : Folder} {bcj2 : CoderIndex}

theorem bcj2Layout_eq_some {layout : Bcj2Layout} (h : graph.bcj2Layout folder = .ok (some layout)) :
    ∃ bcj2 inputs,
      positions (fun coder : CoderInfo => coder.codecId.bytes == SevenZMethod.id .Bcj2) folder.coders =
        [bcj2] ∧
      graph.outputOwners[graph.finalOutput]? = some bcj2 ∧
      inputs = positions (· == bcj2) graph.inputOwners ∧
      List.Forall₂ (fun channel input =>
        graph.bcj2Channel folder bcj2 (folder.coders.length + 1) input [] = .ok channel)
          layout.channels inputs ∧
      layout.coderIndices.Nodup ∧
      ∀ coder ∈ List.range folder.coders.length, coder = bcj2 ∨ coder ∈ layout.coderIndices := by
  unfold bcj2Layout at h
  split at h
  · cases h
  · rename_i bcj2 hmethod
    split at h
    · cases h
    rename_i hfinal
    rw [not_not] at hfinal
    split at h
    · rename_i main call jump control hinputs
      obtain ⟨a, ha, h⟩ := except_bind_eq_ok.mp h
      obtain ⟨b, hb, h⟩ := except_bind_eq_ok.mp h
      obtain ⟨c, hc, h⟩ := except_bind_eq_ok.mp h
      obtain ⟨d, hd, h⟩ := except_bind_eq_ok.mp h
      dsimp only at h
      split at h
      · rename_i hcoders
        obtain rfl := Option.some.inj (Except.ok.inj h)
        exact ⟨bcj2, [main, call, jump, control], hmethod, hfinal, hinputs.symm,
          .cons ha (.cons hb (.cons hc (.cons hd .nil))), hcoders.1, hcoders.2⟩
      · cases h
    · cases h
  · cases h

theorem bcj2Channel_carries (h : folder.graph = .ok graph) {input : InputStreamIndex}
    {channel : Bcj2Channel}
    (hchannel : graph.bcj2Channel folder bcj2 (folder.coders.length + 1) input [] = .ok channel) :
    ∃ start, channel.Carries graph folder bcj2 input start := by
  obtain ⟨coders, result, hwalk, hresult⟩ := bcj2Channel_walk h bcj2 input
  rw [hchannel] at hresult
  cases hpacked : result with
  | error e =>
    rw [hpacked] at hresult
    cases hresult
  | ok packed =>
    rw [hpacked] at hresult
    rw [Except.ok.inj hresult]
    exact hwalk.carries h hpacked

variable {layout : Bcj2Layout} {inputs : List InputStreamIndex}
  (hall : List.Forall₂ (fun channel input => ∃ start, Bcj2Channel.Carries channel graph folder bcj2
    input start) layout.channels inputs)
  (hnodup : layout.coderIndices.Nodup)
  (hcover : ∀ coder ∈ List.range folder.coders.length, coder = bcj2 ∨ coder ∈ layout.coderIndices)

include hall hnodup hcover

theorem coders_perm (hlt : bcj2 < folder.coders.length) :
    (bcj2 :: layout.coderIndices).Perm (List.range folder.coders.length) := by
  have hof : ∀ c ∈ layout.coderIndices, c ≠ bcj2 ∧ c < folder.coders.length := by
    intro c hc
    obtain ⟨channel, hchannel, hmem⟩ := List.mem_flatMap.mp hc
    obtain ⟨coder, hcoder, rfl⟩ := List.mem_map.mp hmem
    obtain ⟨input, -, start, hcarries⟩ := exists_related hall hchannel
    exact ⟨(hcarries.others coder hcoder).1, hcarries.coder_lt hcoder⟩
  have hnot : bcj2 ∉ layout.coderIndices := fun hmem => (hof bcj2 hmem).1 rfl
  apply (List.perm_ext_iff_of_nodup (List.nodup_cons.mpr ⟨hnot, hnodup⟩) List.nodup_range).mpr
  intro c
  constructor
  · intro hc
    rcases List.mem_cons.mp hc with rfl | hc
    · exact List.mem_range.mpr hlt
    · exact List.mem_range.mpr (hof c hc).2
  · exact fun hc => List.mem_cons.mpr (hcover c hc)

theorem slots_perm (h : folder.graph = .ok graph)
    (hinputs : inputs = positions (· == bcj2) folder.inputOwners) :
    (layout.channels.map Bcj2Channel.packed).Perm (List.range graph.packedStreamCount) := by
  have howners : ∀ i ∈ inputs, folder.inputOwners[i]? = some bcj2 := by
    intro i hi
    rw [hinputs] at hi
    obtain ⟨owner, howner, heq⟩ := mem_positions.mp hi
    rw [howner, eq_of_beq heq]
  have hinputsNodup : inputs.Nodup := by
    rw [hinputs]
    exact positions_nodup _ _
  have hslots := Bcj2Channel.slots_nodup hall hnodup hinputsNodup howners
  have hpackedNodup : graph.packedInputs.Nodup :=
    (Folder.packedInputs_perm h).nodup_iff.mpr folder.freeInputs_nodup
  apply (List.perm_ext_iff_of_nodup hslots List.nodup_range).mpr
  intro p
  constructor
  · intro hp
    obtain ⟨channel, hchannel, rfl⟩ := List.mem_map.mp hp
    obtain ⟨input, -, start, hcarries⟩ := exists_related hall hchannel
    exact List.mem_range.mpr (List.getElem?_eq_some_iff.mp hcarries.packed).1
  · intro hp
    have hplt : p < graph.packedInputs.length := List.mem_range.mp hp
    have hfree : graph.packedInputs[p] ∈ folder.freeInputs :=
      (Folder.packedInputs_perm h).mem_iff.mp (List.getElem_mem hplt)
    have hilt : graph.packedInputs[p] < folder.inputOwners.length := by
      rw [Folder.length_inputOwners]
      exact List.mem_range.mp (List.mem_filter.mp hfree).1
    have howner := List.getElem?_eq_getElem hilt
    have howned := hcover _ (List.mem_range.mpr (Folder.mem_inputOwners (List.mem_of_getElem? howner)))
    obtain ⟨channel, hchannel, hstart⟩ := Bcj2Channel.exists_start hall hinputs hfree howner howned
    have hslot : channel.packed = p := by
      obtain ⟨hlt, hat⟩ := List.getElem?_eq_some_iff.mp hstart
      exact hpackedNodup.getElem_inj_iff.mp hat
    exact List.mem_map.mpr ⟨channel, hchannel, hslot⟩

end FolderGraph

theorem Bcj2Layout.sound_of_ok {folder : Folder} {graph : FolderGraph} (h : folder.graph = .ok graph)
    {layout : Bcj2Layout} (hlayout : graph.bcj2Layout folder = .ok (some layout)) :
    ∃ bcj2 inputs, layout.Sound graph folder bcj2 inputs := by
  obtain ⟨-, htables⟩ := Folder.graph_spec h
  obtain ⟨bcj2, inputs, hmethod, hfinal, hinputs, hchannels, hnodup, hcover⟩ :=
    FolderGraph.bcj2Layout_eq_some hlayout
  rw [htables.inputOwners] at hinputs
  rw [htables.outputOwners] at hfinal
  have hall := hchannels.imp fun channel input => FolderGraph.bcj2Channel_carries h
  have hmem : bcj2 ∈ FolderGraph.positions (fun coder : CoderInfo =>
      coder.codecId.bytes == SevenZMethod.id .Bcj2) folder.coders := by
    rw [hmethod]
    exact List.mem_singleton_self bcj2
  obtain ⟨coder, hcoder, hid⟩ := FolderGraph.mem_positions.mp hmem
  exact ⟨bcj2, inputs, ⟨coder, hcoder, eq_of_beq hid⟩, hfinal, hinputs, hall,
    FolderGraph.coders_perm hall hnodup hcover (List.getElem?_eq_some_iff.mp hcoder).1,
    FolderGraph.slots_perm hall hnodup hcover h hinputs⟩

/-! Taking the packed inputs -/

section
variable {δ : Type}

def takeInputs : List ℕ → List (Option δ) → Except R7zError (List δ × List (Option δ))
  | [], inputs => .ok ([], inputs)
  | slot :: slots, inputs => do
    let (input, inputs) ← takeInput inputs slot
    let (taken, inputs) ← takeInputs slots inputs
    return (input :: taken, inputs)

theorem takeInputs_cons_eq_ok {slot : ℕ} {slots : List ℕ} {inputs left : List (Option δ)} {input : δ}
    {taken : List δ} (h : takeInputs (slot :: slots) inputs = .ok (input :: taken, left)) :
    ∃ next, takeInput inputs slot = .ok (input, next) ∧ takeInputs slots next = .ok (taken, left) := by
  obtain ⟨⟨input', next⟩, htake, h⟩ := except_bind_eq_ok.mp h
  obtain ⟨⟨taken', left'⟩, hrest, h⟩ := except_bind_eq_ok.mp h
  cases h
  exact ⟨next, htake, hrest⟩

/-- Distinct slots that are filled give up their readers and nothing else. -/
theorem takeInputs_eq_ok : ∀ {slots : List ℕ} {inputs : List (Option δ)} {taken : List δ},
    slots.Nodup → slots.map (fun slot => inputs[slot]?.join) = taken.map some →
    ∃ left, takeInputs slots inputs = .ok (taken, left) ∧ left.length = inputs.length ∧
      ∀ i, left[i]?.join = if i ∈ slots then none else inputs[i]?.join
  | [], inputs, taken, _, htaken => by
    obtain rfl : taken = [] := List.map_eq_nil_iff.mp htaken.symm
    exact ⟨inputs, rfl, rfl, fun i => (if_neg List.not_mem_nil).symm⟩
  | slot :: slots, inputs, taken, hnodup, htaken => by
    obtain ⟨hnot, hnodup⟩ := List.nodup_cons.mp hnodup
    cases taken with
    | nil => cases htaken
    | cons input taken =>
      obtain ⟨hinput, hrest⟩ := List.cons.inj htaken
      have hlt : slot < inputs.length := by
        by_contra hge
        dsimp only at hinput
        rw [List.getElem?_eq_none (not_lt.mp hge)] at hinput
        cases hinput
      have hset : ∀ i, ((inputs.set slot none)[i]?).join = if i = slot then none else inputs[i]?.join := by
        intro i
        rw [List.getElem?_set]
        split
        · rename_i heq
          rw [if_pos heq.symm]
          rfl
        · rename_i hne
          rw [if_neg (Ne.symm hne)]
      have hnext : slots.map (fun i => ((inputs.set slot none)[i]?).join) = taken.map some := by
        rw [← hrest]
        apply List.map_congr_left
        intro i hi
        rw [hset, if_neg fun heq : i = slot => hnot (heq ▸ hi)]
      obtain ⟨left, hleft, hlength, hat⟩ := takeInputs_eq_ok hnodup hnext
      refine ⟨left, ?_, hlength.trans (List.length_set ..), fun i => ?_⟩
      · refine except_bind_eq_ok.mpr ⟨(input, inputs.set slot none), ?_, ?_⟩
        · exact except_bind_eq_ok.mpr ⟨input, orInvalid_eq_ok.mpr hinput, rfl⟩
        · exact except_bind_eq_ok.mpr ⟨(taken, left), hleft, rfl⟩
      · rw [hat, hset]
        by_cases heq : i = slot
        · rw [if_pos heq, ite_self, if_pos (heq ▸ List.mem_cons_self ..)]
        · rw [if_neg heq]
          exact if_congr ⟨List.mem_cons_of_mem _, fun hi => (List.mem_cons.mp hi).resolve_left heq⟩ rfl rfl

theorem takeInputs_all {slots : List ℕ} {readers taken : List δ}
    (hslots : slots.Perm (List.range readers.length))
    (htaken : slots.map (readers[·]?) = taken.map some) :
    takeInputs slots (readers.map some) = .ok (taken, List.replicate readers.length none) := by
  have hjoin : slots.map (fun slot => (readers.map some)[slot]?.join) = taken.map some := by
    rw [← htaken]
    apply List.map_congr_left
    intro slot _
    rw [List.getElem?_map]
    cases readers[slot]? with
    | none => rfl
    | some reader => rfl
  obtain ⟨left, hleft, hlength, hat⟩ := takeInputs_eq_ok (hslots.nodup_iff.mpr List.nodup_range) hjoin
  rw [List.length_map] at hlength
  have hnone : left = List.replicate readers.length none := by
    apply List.eq_replicate_iff.mpr
    refine ⟨hlength, fun item hitem => ?_⟩
    obtain ⟨i, hi, rfl⟩ := List.mem_iff_getElem.mp hitem
    have hempty := hat i
    rw [if_pos (hslots.mem_iff.mpr (List.mem_range.mpr (hlength ▸ hi))), List.getElem?_eq_getElem hi]
      at hempty
    exact hempty
  rw [hleft, hnone]

end

/-- Binding gives each input of BCJ2 the reader in its slot, each reader being taken once and none being
left. -/
def DecoderPlan.TakesAll {δ : Type} (plan : DecoderPlan) (layout : Bcj2Layout)
    (inputs : List (δ × ℕ)) : Prop :=
  ∃ main call jump control : BoundInput δ, ∃ outputSize,
    plan.bind inputs = .ok { topology := .Bcj2 main call jump control outputSize } ∧
    takeInputs (layout.channels.map Bcj2Channel.packed) (inputs.map fun input => some input.1) =
      .ok ([main.input, call.input, jump.input, control.input], List.replicate inputs.length none)

section
variable {ω δ : Type} {env : Environment ω δ} {folder : Folder} {graph : FolderGraph}
  {layout : Bcj2Layout} {unpackSize : UInt64} {sizes : CoderOutputSizes} {packedSizes : List UInt64}
  {topology : Topology} {memory : ℕ}

theorem planTopology_bcj2 (hlayout : graph.bcj2Layout folder = .ok (some layout))
    (h : planTopology env folder graph unpackSize sizes packedSizes = .ok (topology, memory)) :
    graph.packedStreamCount = packedSizes.length ∧
      ∃ main call jump control outputSize, topology = .Bcj2 main call jump control
        { main := layout.main.packed, call := layout.call.packed, jump := layout.jump.packed,
          control := layout.control.packed } outputSize := by
  unfold planTopology at h
  split at h
  · cases h
  split at h
  · cases h
  rename_i hcount
  rw [not_not] at hcount
  refine ⟨hcount, ?_⟩
  obtain ⟨kind, hkind, h⟩ := except_bind_eq_ok.mp h
  unfold decoderTopology at hkind
  rw [hlayout] at hkind
  obtain ⟨found, hfound, hkind⟩ := except_bind_eq_ok.mp hkind
  obtain rfl := Except.ok.inj hfound
  obtain ⟨bcj2, -, hkind⟩ := except_bind_eq_ok.mp hkind
  obtain ⟨⟨⟩, -, hkind⟩ := except_bind_eq_ok.mp hkind
  obtain rfl := Except.ok.inj hkind
  dsimp only at h
  unfold bcj2Steps at h
  obtain ⟨outputSize, -, h⟩ := except_bind_eq_ok.mp h
  obtain ⟨main, -, h⟩ := except_bind_eq_ok.mp h
  obtain ⟨call, -, h⟩ := except_bind_eq_ok.mp h
  obtain ⟨jump, -, h⟩ := except_bind_eq_ok.mp h
  obtain ⟨control, -, h⟩ := except_bind_eq_ok.mp h
  obtain ⟨mainOutput, -, h⟩ := except_bind_eq_ok.mp h
  obtain ⟨first, -, h⟩ := except_bind_eq_ok.mp h
  obtain ⟨callOutput, -, h⟩ := except_bind_eq_ok.mp h
  obtain ⟨second, -, h⟩ := except_bind_eq_ok.mp h
  obtain ⟨jumpOutput, -, h⟩ := except_bind_eq_ok.mp h
  obtain ⟨declared, -, h⟩ := except_bind_eq_ok.mp h
  split at h
  · cases h
  obtain ⟨coders, -, h⟩ := except_bind_eq_ok.mp h
  obtain ⟨buffers, -, h⟩ := except_bind_eq_ok.mp h
  obtain ⟨⟨⟩, -, h⟩ := except_bind_eq_ok.mp h
  obtain ⟨total, -, h⟩ := except_bind_eq_ok.mp h
  exact ⟨main, call, jump, control, outputSize, (Prod.mk.inj (Except.ok.inj h)).1.symm⟩

theorem DecoderPlan.takesAll {bcj2 : CoderIndex} {streams : List InputStreamIndex}
    (hsound : layout.Sound graph folder bcj2 streams)
    (hlayout : graph.bcj2Layout folder = .ok (some layout))
    (h : planTopology env folder graph unpackSize sizes packedSizes = .ok (topology, memory))
    {inputs : List (δ × ℕ)} (hinputs : inputs.map Prod.snd = packedSizes.map UInt64.toNat) :
    DecoderPlan.TakesAll { topology, packedSizes } layout inputs := by
  obtain ⟨hcount, main, call, jump, control, outputSize, rfl⟩ := planTopology_bcj2 hlayout h
  have hlength : inputs.length = packedSizes.length := by
    have heq := congrArg List.length hinputs
    rwa [List.length_map, List.length_map] at heq
  have hslots : (layout.channels.map Bcj2Channel.packed).Perm (List.range inputs.length) := by
    rw [hlength, ← hcount]
    exact hsound.slots
  -- each channel has a slot of its own
  have hat : ∀ channel ∈ layout.channels, ∃ input, inputs[channel.packed]? = some input := by
    intro channel hchannel
    have hlt := List.mem_range.mp (hslots.mem_iff.mp (List.mem_map.mpr ⟨channel, hchannel, rfl⟩))
    exact ⟨_, List.getElem?_eq_getElem hlt⟩
  obtain ⟨a, ha⟩ := hat layout.main (by simp [Bcj2Layout.channels])
  obtain ⟨b, hb⟩ := hat layout.call (by simp [Bcj2Layout.channels])
  obtain ⟨c, hc⟩ := hat layout.jump (by simp [Bcj2Layout.channels])
  obtain ⟨d, hd⟩ := hat layout.control (by simp [Bcj2Layout.channels])
  have hall : takeInputs (layout.channels.map Bcj2Channel.packed) (inputs.map fun input => some input.1) =
      .ok ([a.1, b.1, c.1, d.1], List.replicate inputs.length none) := by
    have hmap : inputs.map (fun input => some input.1) = (inputs.map Prod.fst).map some := by
      rw [List.map_map]
      rfl
    have hlen : (inputs.map Prod.fst).length = inputs.length := List.length_map ..
    rw [hmap, ← hlen]
    apply takeInputs_all
    · rw [hlen]
      exact hslots
    · simp only [Bcj2Layout.channels, List.map_cons, List.map_nil, List.getElem?_map, ha, hb, hc, hd,
        Option.map_some]
  refine ⟨⟨a.1, main⟩, ⟨b.1, call⟩, ⟨c.1, jump⟩, ⟨d.1, control⟩, outputSize, ?_, hall⟩
  -- binding takes the readers in the same order
  obtain ⟨afterMain, hmain, hall⟩ := takeInputs_cons_eq_ok hall
  obtain ⟨afterCall, hcall, hall⟩ := takeInputs_cons_eq_ok hall
  obtain ⟨afterJump, hjump, hall⟩ := takeInputs_cons_eq_ok hall
  obtain ⟨afterControl, hcontrol, -⟩ := takeInputs_cons_eq_ok hall
  have hsizes : ¬((inputs.zip packedSizes).any fun pair => decide (pair.1.2 ≠ pair.2.toNat)) = true := by
    rw [List.any_eq_true]
    rintro ⟨pair, hpair, hne⟩
    refine of_decide_eq_true hne ?_
    obtain ⟨i, hi, rfl⟩ := List.mem_iff_getElem.mp hpair
    rw [List.length_zip] at hi
    rw [List.getElem_zip]
    have heq := congrArg (·[i]?) hinputs
    simpa [List.getElem?_map, List.getElem?_eq_getElem (lt_min_iff.mp hi).1,
      List.getElem?_eq_getElem (lt_min_iff.mp hi).2] using heq
  unfold DecoderPlan.bind
  rw [if_neg (not_not.mpr hlength), if_neg hsizes]
  refine except_bind_eq_ok.mpr ⟨_, hmain, except_bind_eq_ok.mpr ⟨_, hcall, ?_⟩⟩
  exact except_bind_eq_ok.mpr ⟨_, hjump, except_bind_eq_ok.mpr ⟨_, hcontrol, rfl⟩⟩

/-- The search for the layout of a folder ends. What it finds are channels that make up the folder
together with BCJ2, each in the order of the data, and that share its packed streams; so that a plan for
it binds, and takes the reader of every packed stream once. -/
theorem bcj2_layout_sound (h : folder.graph = .ok graph) :
    (∀ bcj2 input, ∃ coders result, graph.Walk folder bcj2 input coders result ∧
      graph.bcj2Channel folder bcj2 (folder.coders.length + 1) input [] =
        result.map fun packed => { coders := coders.reverse, packed }) ∧
    ∀ layout, graph.bcj2Layout folder = .ok (some layout) →
      (∃ bcj2 inputs, layout.Sound graph folder bcj2 inputs) ∧
      ∀ (env : Environment ω δ) unpackSize sizes packedSizes topology memory,
        planTopology env folder graph unpackSize sizes packedSizes = .ok (topology, memory) →
        ∀ inputs : List (δ × ℕ), inputs.map Prod.snd = packedSizes.map UInt64.toNat →
          DecoderPlan.TakesAll { topology, packedSizes } layout inputs := by
  refine ⟨FolderGraph.bcj2Channel_walk h, fun layout hlayout => ?_⟩
  obtain ⟨bcj2, streams, hsound⟩ := Bcj2Layout.sound_of_ok h hlayout
  exact ⟨⟨bcj2, streams, hsound⟩, fun env unpackSize sizes packedSizes topology memory hplan inputs =>
    DecoderPlan.takesAll hsound hlayout hplan⟩

end

/-- A copied main stream in the second of four packed streams, the others in the opposite order. -/
def copiedBcj2 : Folder :=
  { coders := [{ codecId := ⟨[0x00], Nat.le_of_ble_eq_true rfl⟩, numInStreams := 1, numOutStreams := 1,
                 properties := none },
               { codecId := ⟨[0x03, 0x03, 0x01, 0x1B], Nat.le_of_ble_eq_true rfl⟩, numInStreams := 4,
                 numOutStreams := 1, properties := none }]
    bindPairs := [(1, 0)], packedIndices := [4, 0, 3, 2] }

def copiedBcj2Graph : FolderGraph :=
  { executionOrder := [0, 1], packedInputs := [4, 0, 3, 2], finalOutput := 1,
    inputOwners := [0, 1, 1, 1, 1], outputOwners := [0, 1],
    inputSources := [none, some 0, none, none, none] }

def copiedBcj2Layout : Bcj2Layout :=
  { main := ⟨[⟨0, 0⟩], 1⟩, call := ⟨[], 3⟩, jump := ⟨[], 2⟩, control := ⟨[], 0⟩ }

theorem bcj2_layout_copied :
    (∃ bcj2 inputs, copiedBcj2Layout.Sound copiedBcj2Graph copiedBcj2 bcj2 inputs) ∧
    ∃ topology, DecoderPlan.TakesAll { topology, packedSizes := [5, 10, 0, 4] } copiedBcj2Layout
      [((), 5), ((), 10), ((), 0), ((), 4)] := by
  have hgraph : copiedBcj2.graph = .ok copiedBcj2Graph := by decide +kernel
  have hlayout : copiedBcj2Graph.bcj2Layout copiedBcj2 = .ok (some copiedBcj2Layout) := by decide +kernel
  have hplan : ∃ plan, planTopology unreadable copiedBcj2 copiedBcj2Graph 14 ⟨[10, 14], 1, 14⟩
      [5, 10, 0, 4] = .ok plan :=
    ⟨(.Bcj2 [⟨.Copy, .Known 10, .Known 10⟩] [] [] [] ⟨1, 3, 2, 0⟩ 14, 1048590), by decide +kernel⟩
  obtain ⟨⟨topology, memory⟩, hplan⟩ := hplan
  obtain ⟨hsound, hbinds⟩ :=
    (@bcj2_layout_sound Unit Unit copiedBcj2 copiedBcj2Graph hgraph).2 copiedBcj2Layout hlayout
  exact ⟨hsound, topology, hbinds unreadable 14 ⟨[10, 14], 1, 14⟩ [5, 10, 0, 4] topology memory hplan
    [((), 5), ((), 10), ((), 0), ((), 4)] (by decide)⟩

end R7z
