import R7z.FileStreams
import R7z.FilesScan
import R7z.PropertyOrder
import R7z.WriterNames

/-! Names of entries: the names in the file section as they are validated, as they are iterated, and as
they go along with the entries. -/

namespace R7z

open Wire Wire.Parser

structure FilesInfoNameSlices where
  data : List UInt8
  count : ℕ
  position : ℕ
  index : ℕ
deriving DecidableEq, Repr

namespace FilesInfoNameSlices

def findNull (data : List UInt8) : (turns position : ℕ) → Bool × ℕ
  | 0, position => (false, position)
  | turns + 1, position =>
    if position + 1 < data.length then
      if data.getD position 0 = 0 ∧ data.getD (position + 1) 0 = 0 then (true, position + 2)
      else findNull data turns (position + 2)
    else (false, position)

def next (names : FilesInfoNameSlices) : Option (Option (List UInt8)) × FilesInfoNameSlices :=
  if names.count ≤ names.index then (none, names)
  else if names.data = [] ∨ names.data.length ≤ names.position + 1 then
    (some none, { names with index := names.index + 1 })
  else
    let start := names.position
    let found := findNull names.data names.data.length start
    (some (if found.1 then some ((names.data.drop start).take (found.2 - 2 - start)) else none),
      { names with index := names.index + 1, position := found.2 })

def nth : ℕ → FilesInfoNameSlices → Option (Option (List UInt8)) × FilesInfoNameSlices
  | 0, names => names.next
  | n + 1, names => if names.next.1.isNone then names.next else nth n names.next.2

def collect : ℕ → FilesInfoNameSlices → List (Option (List UInt8))
  | 0, _ => []
  | turns + 1, names =>
    match names.next with
    | (none, _) => []
    | (some item, names) => item :: collect turns names

def left (names : FilesInfoNameSlices) : List UInt8 := names.data.drop names.position

theorem nextName_short : ∀ {data : List UInt8}, data.length < 2 → nextName data = (none, data)
  | [], _ => rfl
  | [_], _ => rfl
  | _ :: _ :: data, h => absurd h (by rw [List.length_cons, List.length_cons]; omega)

theorem findNull_eq (data : List UInt8) : ∀ (turns position : ℕ), data.length ≤ position + turns →
    position ≤ (findNull data turns position).2 ∧
      data.drop (findNull data turns position).2 = (nextName (data.drop position)).2 ∧
      (if (findNull data turns position).1 then
        some ((data.drop position).take ((findNull data turns position).2 - 2 - position)) else none) =
      (nextName (data.drop position)).1 ∧
      ((findNull data turns position).1 = true → position + 2 ≤ (findNull data turns position).2)
  | 0, position, hturns => by
    have hnil : data.drop position = [] := List.drop_eq_nil_of_le hturns
    rw [findNull, hnil]
    exact ⟨le_rfl, rfl, rfl, fun h => absurd h Bool.false_ne_true⟩
  | turns + 1, position, hturns => by
    rw [findNull]
    split
    · rename_i hlt
      have hunit : data.drop position =
          data.getD position 0 :: data.getD (position + 1) 0 :: data.drop (position + 2) := by
        rw [List.drop_eq_getElem_cons (show position < data.length by omega), List.drop_eq_getElem_cons hlt,
          List.getD_eq_getElem _ _ (show position < data.length by omega), List.getD_eq_getElem _ _ hlt]
      rw [hunit, nextName]
      split
      · refine ⟨by omega, rfl, ?_, fun _ => le_rfl⟩
        rw [if_pos rfl, show position + 2 - 2 - position = 0 by omega, List.take_zero]
      · obtain ⟨hle, hdrop, hname, hfound⟩ := findNull_eq data turns (position + 2) (by omega)
        refine ⟨by omega, hdrop, ?_, fun h => by have hmore := hfound h; omega⟩
        rw [← hname]
        by_cases h : (findNull data turns (position + 2)).1 = true
        · have hmore := hfound h
          rw [if_pos h, if_pos h, Option.map_some]
          obtain ⟨k, hk⟩ : ∃ k, (findNull data turns (position + 2)).2 - 2 - position = k + 2 :=
            ⟨(findNull data turns (position + 2)).2 - 2 - position - 2, by omega⟩
          have hk' : (findNull data turns (position + 2)).2 - 2 - (position + 2) = k := by omega
          rw [hk, hk']
          rfl
        · rw [if_neg h, if_neg h]
          rfl
    · rename_i hge
      have hshort : (data.drop position).length < 2 := by
        rw [List.length_drop]
        omega
      have hnext := nextName_short hshort
      refine ⟨le_rfl, ?_, ?_, fun h => absurd h Bool.false_ne_true⟩
      · rw [hnext]
      · rw [hnext, if_neg Bool.false_ne_true]

theorem next_some {names : FilesInfoNameSlices} (h : names.index < names.count) :
    names.next.1 = some (nextName names.left).1 ∧ names.next.2.left = (nextName names.left).2 ∧
      names.next.2.index = names.index + 1 ∧ names.next.2.count = names.count := by
  obtain ⟨-, hdrop, hname, -⟩ := findNull_eq names.data names.data.length names.position (Nat.le_add_left _ _)
  rw [next, if_neg (not_le.mpr h)]
  split
  · rename_i hshort
    have hleft : names.left.length < 2 := by
      rw [left, List.length_drop]
      rcases hshort with hnil | hle
      · rw [hnil, List.length_nil]
        omega
      · omega
    have hnext := nextName_short hleft
    refine ⟨?_, ?_, rfl, rfl⟩
    · rw [hnext]
    · rw [hnext]
      rfl
  · exact ⟨congrArg some hname, hdrop, rfl, rfl⟩

theorem next_none {names : FilesInfoNameSlices} (h : names.count ≤ names.index) : names.next = (none, names) :=
  if_pos h

theorem collect_eq : ∀ {turns : ℕ} {names : FilesInfoNameSlices}, names.count - names.index ≤ turns →
    collect turns names = nameSlicesFrom (names.count - names.index) names.left
  | 0, names, h => by
    rw [Nat.le_zero.mp h]
    rfl
  | turns + 1, names, h => by
    rcases Nat.lt_or_ge names.index names.count with hlt | hge
    · obtain ⟨hitem, hleft, hindex, hcount⟩ := next_some hlt
      have hturns : names.next.2.count - names.next.2.index ≤ turns := by
        rw [hindex, hcount]
        omega
      have hsucc : names.count - names.index = names.count - (names.index + 1) + 1 := by omega
      rw [collect, ← Prod.mk.eta (p := names.next), hitem]
      dsimp only
      rw [collect_eq hturns, hindex, hcount, hleft, hsucc, nameSlicesFrom]
    · rw [collect, next_none hge, Nat.sub_eq_zero_of_le hge]
      rfl

def items (names : FilesInfoNameSlices) : List (Option (List UInt8)) :=
  nameSlicesFrom (names.count - names.index) names.left

theorem next_items (names : FilesInfoNameSlices) :
    names.next.1 = names.items.head? ∧ names.next.2.items = names.items.tail := by
  rcases Nat.lt_or_ge names.index names.count with hlt | hge
  · obtain ⟨hitem, hleft, hindex, hcount⟩ := next_some hlt
    have hsucc : names.count - names.index = names.count - (names.index + 1) + 1 := by omega
    rw [items, items, hcount, hindex, hleft, hitem, hsucc]
    exact ⟨rfl, rfl⟩
  · rw [next_none hge, items, Nat.sub_eq_zero_of_le hge]
    exact ⟨rfl, rfl⟩

theorem nth_none {names : FilesInfoNameSlices} (h : names.count ≤ names.index) : ∀ n, names.nth n = (none, names)
  | 0 => next_none h
  | n + 1 => by
    rw [nth, next_none h]
    rfl

theorem nth_succ (n : ℕ) (names : FilesInfoNameSlices) : names.nth (n + 1) = names.next.2.nth n := by
  rcases Nat.lt_or_ge names.index names.count with hlt | hge
  · rw [nth, (next_some hlt).1]
    rfl
  · rw [nth_none hge, next_none hge, nth_none hge]

theorem nth_items : ∀ (n : ℕ) (names : FilesInfoNameSlices),
    (names.nth n).1 = names.items[n]? ∧ (names.nth n).2.items = names.items.drop (n + 1)
  | 0, names => by
    obtain ⟨hitem, hrest⟩ := next_items names
    exact ⟨hitem.trans List.head?_eq_getElem?, hrest.trans List.drop_one.symm⟩
  | n + 1, names => by
    obtain ⟨hitem, hrest⟩ := nth_items n names.next.2
    rw [(next_items names).2, List.getElem?_tail] at hitem
    rw [(next_items names).2, List.drop_tail] at hrest
    rw [nth_succ]
    exact ⟨hitem, hrest⟩

end FilesInfoNameSlices

/-! Names as they are validated -/

theorem skipName_some : ∀ {data rest : List UInt8}, skipName data = some rest →
    ∃ name, nextName data = (some name, rest) ∧ data = name ++ 0 :: 0 :: rest
  | [], _, h => by cases h
  | [_], _, h => by cases h
  | a :: b :: data, rest, h => by
    rw [skipName] at h
    split at h
    · rename_i hnull
      cases h
      exact ⟨[], by rw [nextName, if_pos hnull], by rw [hnull.1, hnull.2]; rfl⟩
    · rename_i hunit
      obtain ⟨name, hnext, hdata⟩ := skipName_some h
      refine ⟨a :: b :: name, ?_, by rw [hdata]; rfl⟩
      rw [nextName, if_neg hunit, hnext]
      rfl

theorem skipNames_some : ∀ {n : ℕ} {data rest : List UInt8}, skipNames n data = some rest →
    ∃ names : List (List UInt8), nameSlicesFrom n data = names.map some ∧ names.length = n ∧
      (∀ name ∈ names, UnitsWithoutNul name) ∧ names.flatMap (· ++ [0, 0]) ++ rest = data
  | 0, data, rest, h => by
    cases h
    exact ⟨[], rfl, rfl, fun _ h => absurd h List.not_mem_nil, rfl⟩
  | n + 1, data, rest, h => by
    obtain ⟨data', hskip, h⟩ := Option.bind_eq_some_iff.mp h
    obtain ⟨name, hnext, hdata⟩ := skipName_some hskip
    obtain ⟨names, hitems, hlength, hunits, hjoin⟩ := skipNames_some h
    have hname : UnitsWithoutNul name := @nextName_valid data name (by rw [hnext])
    refine ⟨name :: names, ?_, ?_, List.forall_mem_cons.mpr ⟨hname, hunits⟩, ?_⟩
    · rw [nameSlicesFrom, hnext, hitems]
      rfl
    · rw [List.length_cons, hlength]
    · rw [hdata, ← hjoin, List.flatMap_cons]
      simp only [List.append_assoc, List.cons_append, List.nil_append]

theorem validateNameData_ok {data : List UInt8} {n : ℕ} (h : validateNameData data n = .ok ()) :
    skipNames n data = some [] := by
  by_contra hnot
  rw [validateNameData, if_neg hnot] at h
  cases h

namespace FilesInfo

def iterNames (files : FilesInfo) : FilesInfoNameSlices :=
  { data := files.nameData, count := files.numFiles.toNat, position := 0, index := 0 }

theorem collect_iterNames {turns : ℕ} {files : FilesInfo} (h : files.numFiles.toNat ≤ turns) :
    files.iterNames.collect turns = files.nameSlices :=
  FilesInfoNameSlices.collect_eq h

/-! A property of names, once it is read, stays as it is -/

section
variable {backing : Slice} {externalData : List Slice}

def Named (acc : FilesInfo × UInt32) : Prop :=
  registered acc.2 .Name = none ∧ validateNameData acc.1.nameData acc.1.numFiles.toNat = .ok ()

theorem PropertyValue.set_nameData {value : PropertyValue} (h : value.tag? ≠ some .Name) (files : FilesInfo) :
    (value.set files).nameData = files.nameData := by
  cases value with
  | name _ => exact absurd rfl h
  | _ => rfl

theorem accept_steps {acc acc' : FilesInfo × UInt32} {block : Property × Slice}
    (h : accept backing externalData acc block = .ok acc') :
    registered acc.2 block.1 = some acc'.2 ∧
      ∃ value, readValue acc.1.numFiles.toNat block.1 block.2 backing externalData = .ok value ∧
        acc'.1 = value.set acc.1 := by
  obtain ⟨hseen, hread⟩ := accept_eq_ok.mp h
  rw [readProperty_eq] at hread
  refine ⟨by rw [registered, hseen]; rfl, ?_⟩
  rcases hvalue : readValue acc.1.numFiles.toNat block.1 block.2 backing externalData with e | value
  · rw [hvalue] at hread
    cases hread
  · rw [hvalue] at hread
    exact ⟨value, rfl, (Except.ok.inj hread).symm⟩

theorem accept_name {acc acc' : FilesInfo × UInt32} {block : Slice}
    (h : accept backing externalData acc (.Name, block) = .ok acc') : Named acc' := by
  obtain ⟨hseen, value, hvalue, hset⟩ := accept_steps h
  have htwice := @registered_twice .Name rfl acc.2
  rw [hseen] at htwice
  refine ⟨htwice, ?_⟩
  obtain ⟨data, -, hvalue⟩ := except_bind_eq_ok.mp hvalue
  obtain ⟨_, hvalid, hvalue⟩ := except_bind_eq_ok.mp hvalue
  cases hvalue
  rw [hset]
  exact hvalid

theorem Named.accept {acc acc' : FilesInfo × UInt32} (hacc : Named acc) {block : Property × Slice}
    (h : FilesInfo.accept backing externalData acc block = .ok acc') : Named acc' := by
  obtain ⟨hseen, value, hvalue, hset⟩ := accept_steps h
  have htag : block.1 ≠ .Name := by
    intro heq
    rw [heq, hacc.1] at hseen
    cases hseen
  have hother : value.tag? ≠ some .Name := by
    rw [readValue_tag hvalue]
    split
    · exact fun h => htag (Option.some.inj h)
    · exact fun h => by cases h
  have hcomm := registered_comm acc.2 block.1 .Name
  rw [hseen, hacc.1] at hcomm
  refine ⟨hcomm, ?_⟩
  rw [hset, PropertyValue.set_nameData hother, PropertyValue.set_numFiles]
  exact hacc.2

theorem Named.accepts : ∀ {blocks : List (Property × Slice)} {acc acc' : FilesInfo × UInt32},
    Named acc ∨ .Name ∈ blocks.map Prod.fst →
      blocks.foldlM (FilesInfo.accept backing externalData) acc = .ok acc' → Named acc'
  | [], acc, acc', h, hfold => by
    cases hfold
    exact h.resolve_right List.not_mem_nil
  | (tag, block) :: blocks, acc, acc', h, hfold => by
    obtain ⟨acc₁, hfirst, hrest⟩ := except_bind_eq_ok.mp hfold
    refine Named.accepts ?_ hrest
    rcases h with hacc | hmem
    · exact .inl (hacc.accept hfirst)
    · rcases List.mem_cons.mp hmem with htag | hmem
      · obtain rfl : .Name = tag := htag
        exact .inl (accept_name hfirst)
      · exact .inr hmem

theorem parse_named {s r : Slice} {files : FilesInfo}
    (h : parseWithExternal backing externalData s = .ok (files, r)) :
    ∃ blocks, Section s files.numFiles blocks r ∧ (.Name ∈ blocks.map Prod.fst →
      validateNameData files.nameData files.numFiles.toNat = .ok ()) := by
  obtain ⟨⟨numFiles, uses⟩, hscan, hcount⟩ := parse_mirrors backing externalData s files r h
  obtain ⟨blocks, hsection⟩ := section_of_scan hscan
  rw [show files.numFiles = numFiles from hcount]
  refine ⟨blocks, hsection, fun hmem => ?_⟩
  rw [parse_blocks externalData hsection] at h
  rcases hfold : blocks.foldlM (FilesInfo.accept backing externalData) (empty numFiles, 0) with e | acc
  · rw [hfold] at h
    cases h
  · rw [hfold] at h
    cases h
    have hnamed := Named.accepts (.inr hmem) hfold
    rw [← show acc.1.numFiles = numFiles from hcount]
    exact hnamed.2

end

end FilesInfo

/-! Names along with the entries -/

structure Entry where
  index : ℕ
  name : Option (List UInt8)
  modified : Option UInt64
  attributes : Option UInt32
  kind : EntryKind Unit
deriving DecidableEq, Repr

/-- The entries that are still to come, and the names that are. -/
structure NamedEntries extends Entries where
  names : Option FilesInfoNameSlices
deriving DecidableEq

namespace NamedEntries

def new (files : Option FilesInfo) (count : ℕ) : NamedEntries :=
  { Entries.new files count with names := files.map FilesInfo.iterNames }

def nthName (n : ℕ) (entries : NamedEntries) : Option (List UInt8) :=
  ((entries.names.map (·.nth n)).bind Prod.fst).join

def nth (n : ℕ) (entries : NamedEntries) : Option Entry × NamedEntries :=
  match entries.toEntries.nth n with
  | (none, rest) => (none, { entries with toEntries := rest })
  | (some (index, kind), rest) =>
    (some { index
            name := entries.nthName n
            modified := entries.files.bind fun files => (files.mtimes[index]?).join
            attributes := entries.files.bind fun files => (files.attributes[index]?).join
            kind },
      { toEntries := rest, names := entries.names.map fun names => (names.nth n).2 })

def nextEntry (entries : NamedEntries) : Option Entry × NamedEntries := nth 0 entries

def nexts : ℕ → NamedEntries → Option Entry × NamedEntries
  | 0, entries => entries.nextEntry
  | n + 1, entries => nexts n entries.nextEntry.2

theorem nth_some {n : ℕ} {entries : NamedEntries} (h : n < entries.len) :
    nth n entries =
      (some { index := entries.next + n
              name := entries.nthName n
              modified := entries.files.bind fun files => (files.mtimes[entries.next + n]?).join
              attributes := entries.files.bind fun files => (files.attributes[entries.next + n]?).join
              kind := entries.kind (entries.next + n) },
        { files := entries.files, next := entries.next + n + 1, count := entries.count
          names := entries.names.map fun names => (names.nth n).2 }) := by
  have hlt : entries.next + n < entries.count := by
    unfold Entries.len at h
    omega
  rw [nth, Entries.nth, if_pos hlt]

theorem nth_eq_nexts : ∀ {n : ℕ} {entries : NamedEntries}, n < entries.len → nth n entries = nexts n entries
  | 0, _, _ => rfl
  | n + 1, entries, h => by
    have hnext : entries.nextEntry = _ := nth_some (Nat.zero_lt_of_lt h)
    have hlen : n < entries.nextEntry.2.len := by
      rw [hnext]
      unfold Entries.len at h ⊢
      dsimp only
      omega
    have hindex : entries.next + (n + 1) = entries.next + 0 + 1 + n := by omega
    rw [nexts, ← nth_eq_nexts hlen, nth_some h, nth_some hlen, hnext, hindex]
    simp only [nthName, Option.map_map, Function.comp_def, FilesInfoNameSlices.nth_succ]
    rfl

/-- As long as entries are to come, the items of the names are those from the next entry on. -/
def InStep (entries : NamedEntries) : Prop :=
  entries.next < entries.count → entries.names.map FilesInfoNameSlices.items =
    entries.files.map fun files => files.nameSlices.drop entries.next

theorem new_inStep (files : Option FilesInfo) (count : ℕ) : (new files count).InStep := by
  intro _
  cases files with
  | none => rfl
  | some files => rfl

theorem InStep.nth {entries : NamedEntries} (h : entries.InStep) (n : ℕ) : (NamedEntries.nth n entries).2.InStep := by
  rcases Nat.lt_or_ge n entries.len with hlt | hge
  · intro _
    have hbefore : entries.next < entries.count := Nat.lt_of_sub_pos (Nat.zero_lt_of_lt hlt)
    have hitems : (FilesInfoNameSlices.items ∘ fun names => (names.nth n).2) =
        List.drop (n + 1) ∘ FilesInfoNameSlices.items := funext fun names => (FilesInfoNameSlices.nth_items n names).2
    rw [nth_some hlt]
    dsimp only
    rw [Option.map_map, hitems, ← Option.map_map, h hbefore, Option.map_map]
    refine congrArg (fun drop => entries.files.map drop) (funext fun files => ?_)
    rw [Function.comp_apply, List.drop_drop, Nat.add_assoc]
  · have hend : ¬entries.next + n < entries.count := by
      unfold Entries.len at hge
      omega
    rw [NamedEntries.nth, Entries.nth, if_neg hend]
    exact fun hlt => absurd hlt (lt_irrefl _)

theorem InStep.nthName {entries : NamedEntries} (h : entries.InStep) {n : ℕ} (hn : n < entries.len) :
    entries.nthName n = entries.files.bind fun files => (files.nameSlices[entries.next + n]?).join := by
  have hitems := h (Nat.lt_of_sub_pos (Nat.zero_lt_of_lt hn))
  rw [NamedEntries.nthName]
  cases hnames : entries.names with
  | none =>
    rw [hnames] at hitems
    rw [Option.map_eq_none_iff.mp hitems.symm]
    rfl
  | some names =>
    rw [hnames] at hitems
    obtain ⟨files, hfiles, heq⟩ := Option.map_eq_some_iff.mp hitems.symm
    rw [hfiles, Option.map_some, Option.bind_some, Option.bind_some, (FilesInfoNameSlices.nth_items n names).1,
      ← heq, List.getElem?_drop]

def after (files : Option FilesInfo) (count : ℕ) (calls : List ℕ) : NamedEntries :=
  calls.foldl (fun entries n => (nth n entries).2) (new files count)

theorem after_inStep (files : Option FilesInfo) (count : ℕ) (calls : List ℕ) : (after files count calls).InStep :=
  List.foldlRecOn calls _ (new_inStep files count) fun _ h n _ => h.nth n

end NamedEntries

/-- Names stay in step with entries: the names that are parsed are as many as the entries, each without a
null unit, and are the name data when a null unit is put after each; entries that are passed over are as many
calls of `next`, whatever comes after; and an entry has the name at its own index. -/
theorem names_in_step :
    (∀ {backing s r : Slice} {externalData : List Slice} {files : FilesInfo},
      FilesInfo.parseWithExternal backing externalData s = .ok (files, r) →
      ∃ blocks, FilesInfo.Section s files.numFiles blocks r ∧ (.Name ∈ blocks.map Prod.fst →
        ∃ names : List (List UInt8), names.length = files.numFiles.toNat ∧
          (∀ turns, files.numFiles.toNat ≤ turns → files.iterNames.collect turns = names.map some) ∧
          (∀ name ∈ names, UnitsWithoutNul name) ∧ names.flatMap (· ++ [0, 0]) = files.nameData)) ∧
    (∀ (n : ℕ) (entries : NamedEntries), n < entries.len → entries.nth n = entries.nexts n) ∧
    ∀ (files : Option FilesInfo) (count : ℕ) (calls : List ℕ) (n : ℕ),
      let entries := NamedEntries.after files count calls
      n < entries.len → ∃ entry, (entries.nth n).1 = some entry ∧ entry.index = entries.next + n ∧
        entry.name = entries.files.bind fun files => (files.nameSlices[entry.index]?).join := by
  refine ⟨fun h => ?_, fun n entries h => NamedEntries.nth_eq_nexts h, ?_⟩
  · obtain ⟨blocks, hsection, hnamed⟩ := FilesInfo.parse_named h
    refine ⟨blocks, hsection, fun hmem => ?_⟩
    obtain ⟨names, hitems, hlength, hunits, hjoin⟩ := skipNames_some (validateNameData_ok (hnamed hmem))
    refine ⟨names, hlength, fun turns hturns => ?_, hunits, ?_⟩
    · rw [FilesInfo.collect_iterNames hturns]
      exact hitems
    · rw [← hjoin, List.append_nil]
  · intro files count calls n entries h
    have hname := (NamedEntries.after_inStep files count calls).nthName h
    rw [NamedEntries.nth_some h]
    exact ⟨_, rfl, rfl, hname⟩

/-- Two files, whose names end where the data ends; the second is reached past the first. -/
theorem names_in_step_two : ∃ files r,
    FilesInfo.parseWithExternal FilesInfo.namedFiles [] FilesInfo.namedFiles = .ok (files, r) ∧
    (∃ blocks, FilesInfo.Section FilesInfo.namedFiles files.numFiles blocks r ∧
      .Name ∈ blocks.map Prod.fst ∧ ∃ names : List (List UInt8), names.length = files.numFiles.toNat ∧
        (∀ turns, files.numFiles.toNat ≤ turns → files.iterNames.collect turns = names.map some) ∧
        (∀ name ∈ names, UnitsWithoutNul name) ∧ names.flatMap (· ++ [0, 0]) = files.nameData) ∧
    (NamedEntries.new (some files) 2).nth 1 = (NamedEntries.new (some files) 2).nexts 1 ∧
    ∃ entry, ((NamedEntries.after (some files) 2 [0]).nth 0).1 = some entry ∧ entry.index = 1 ∧
      entry.name = (files.nameSlices[entry.index]?).join := by
  have hparse : (FilesInfo.parseWithExternal FilesInfo.namedFiles [] FilesInfo.namedFiles).isOk := by
    decide +kernel
  obtain ⟨⟨files, r⟩, hparse⟩ := eq_ok_of_isOk hparse
  obtain ⟨blocks, hsection, hnames⟩ := names_in_step.1 hparse
  refine ⟨files, r, hparse, ⟨blocks, hsection, ?_⟩, names_in_step.2.1 1 _ Nat.one_lt_two, ?_⟩
  · have hmem : .Name ∈ blocks.map Prod.fst := by
      obtain ⟨s₁, s₂, htag, hcount, hblocks⟩ := hsection
      cases htag
      have hrest : s₂ = ⟨2, FilesInfo.namedFiles.bytes.drop 2⟩ := (Prod.mk.inj (Except.ok.inj hcount)).2.symm
      subst hrest
      cases hblocks with
      | done hend => cases hend
      | more hname _ _ _ _ =>
        cases hname
        exact List.mem_cons_self ..
    exact ⟨hmem, hnames hmem⟩
  · exact names_in_step.2.2 (some files) 2 [0] 0 Nat.zero_lt_one

end R7z
