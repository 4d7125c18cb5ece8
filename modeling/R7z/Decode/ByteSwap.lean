import R7z.Effect.Reader
import R7z.Order.Groups

/-! The byte-swap filter: a reader that reverses the groups of two or four bytes of another one. -/

namespace R7z

open Effect Effect.Machine Effect.Reader Groups

def overwrite (buffer : List UInt8) (start : ℕ) (bytes : List UInt8) : List UInt8 :=
  buffer.take start ++ bytes ++ buffer.drop (start + bytes.length)

theorem length_overwrite {buffer bytes : List UInt8} {start : ℕ}
    (h : start + bytes.length ≤ buffer.length) : (overwrite buffer start bytes).length = buffer.length := by
  rw [overwrite, List.length_append, List.length_append, List.length_take, List.length_drop]
  omega

theorem take_overwrite {buffer bytes : List UInt8} {start : ℕ} (h : start ≤ buffer.length) :
    (overwrite buffer start bytes).take (start + bytes.length) = buffer.take start ++ bytes := by
  rw [overwrite]
  exact List.take_left' (by rw [List.length_append, List.length_take_of_le h])

theorem take_overwrite_zero (buffer bytes : List UInt8) :
    (overwrite buffer 0 bytes).take bytes.length = bytes := by
  simpa using @take_overwrite buffer bytes 0 (Nat.zero_le buffer.length)

def swapGroupsScalar : (width : ℕ) → (bytes : List UInt8) → List UInt8
  | 2, a :: b :: rest => b :: a :: swapGroupsScalar 2 rest
  | 4, a :: b :: c :: d :: rest => d :: c :: b :: a :: swapGroupsScalar 4 rest
  | _, bytes => bytes

theorem swapGroupsScalar_eq {w : ℕ} (hw : w = 2 ∨ w = 4) (bytes : List UInt8) :
    swapGroupsScalar w bytes = reverseGroups w bytes := by
  have hpos : 0 < w := by omega
  have key : ∀ {gs : List (List UInt8)} {t : List UInt8}, Grouped w gs → t.length < w →
      swapGroupsScalar w (gs.flatten ++ t) = (gs.map List.reverse).flatten ++ t := by
    intro gs t hgs ht
    induction gs with
    | nil =>
      rcases hw with rfl | rfl
      · rcases t with _ | ⟨a, _ | ⟨b, t⟩⟩
        · rfl
        · rfl
        · simp only [List.length_cons] at ht
          omega
      · rcases t with _ | ⟨a, _ | ⟨b, _ | ⟨c, _ | ⟨d, t⟩⟩⟩⟩
        · rfl
        · rfl
        · rfl
        · rfl
        · simp only [List.length_cons] at ht
          omega
    | cons g gs ih =>
      obtain ⟨hg, hrest⟩ := hgs.cons
      rcases hw with rfl | rfl
      · obtain ⟨a, b, rfl⟩ := List.length_eq_two.mp hg
        simpa [swapGroupsScalar] using ih hrest
      · obtain ⟨a, b, c, d, rfl⟩ := List.length_eq_four.mp hg
        simpa [swapGroupsScalar] using ih hrest
  conv_lhs => rw [← groups_append_tail hpos bytes]
  exact key (groups_grouped bytes) (tail_length hpos bytes)

def maxSwapWidth : ℕ := 4

/-- `pending` is filled from the front with bytes that are not yet a group, and when it is full, or at the
end, handed over from `pendingOutputPosition` on. -/
structure ByteSwapReader (ρ : Type) where
  inner : ρ
  width : ℕ
  pending : List UInt8
  pendingLen : ℕ
  pendingOutputPosition : ℕ
  pendingOutputLength : ℕ
  eof : Bool

namespace ByteSwapReader

variable {ρ ε : Type}

def new (inner : ρ) (width : ℕ) : ByteSwapReader ρ where
  inner := inner
  width := width
  pending := List.replicate maxSwapWidth 0
  pendingLen := 0
  pendingOutputPosition := 0
  pendingOutputLength := 0
  eof := false

def drainPendingOutput (n : ℕ) (reader : ByteSwapReader ρ) : List UInt8 × ByteSwapReader ρ :=
  let remaining := reader.pendingOutputLength - reader.pendingOutputPosition
  let read := min remaining n
  let start := reader.pendingOutputPosition
  let position := start + read
  ((reader.pending.drop start).take read,
    if position = reader.pendingOutputLength then
      { reader with pendingOutputPosition := 0, pendingOutputLength := 0 }
    else { reader with pendingOutputPosition := position })

variable (inner : Reader ρ ε UInt8)

def readInner (n : ℕ) : Machine (ByteSwapReader ρ) ε (List UInt8) :=
  focus ByteSwapReader.inner (fun inner reader => { reader with inner := inner }) (inner n)

/-- The loop that fills `pending`. A turn reads a byte at least or reaches the end, so there are as many
turns as bytes are missing. -/
def fillPending : (turns : ℕ) → Machine (ByteSwapReader ρ) ε Unit
  | 0 => pure ()
  | turns + 1 => do
    let reader ← get
    if reader.pendingLen < reader.width ∧ reader.eof = false then do
      let read ← readInner inner (reader.width - reader.pendingLen)
      if read = [] then modify fun reader => { reader with eof := true }
      else modify fun reader =>
        { reader with
          pending := overwrite reader.pending reader.pendingLen read
          pendingLen := reader.pendingLen + read.length }
      fillPending turns
    else pure ()

def readSmall (n : ℕ) : Machine (ByteSwapReader ρ) ε (List UInt8) := do
  let reader ← get
  if 0 < reader.pendingOutputLength then fun reader =>
    (.ok (drainPendingOutput n reader).1, (drainPendingOutput n reader).2)
  else do
    fillPending inner (reader.width - reader.pendingLen)
    let reader ← get
    if reader.pendingLen = 0 then pure []
    else do
      -- only at the end of the data is a group not full, and then it is not swapped
      if reader.pendingLen = reader.width then
        modify fun reader =>
          { reader with
            pending := overwrite reader.pending 0
              (swapGroupsScalar reader.width (reader.pending.take reader.width)) }
      else pure ()
      modify fun reader => { reader with pendingOutputLength := reader.pendingLen, pendingLen := 0 }
      fun reader => (.ok (drainPendingOutput n reader).1, (drainPendingOutput n reader).2)

/-- The loop that fills the caller's buffer, which holds `filled`, until a group is complete. -/
def readLarge (n : ℕ) : (turns : ℕ) → (filled : List UInt8) → Machine (ByteSwapReader ρ) ε (List UInt8)
  | 0, filled => pure filled
  | turns + 1, filled => do
    let reader ← get
    if reader.eof then pure filled
    else do
      let read ← onError (readInner inner (n - filled.length)) fun reader =>
        { reader with pending := overwrite reader.pending 0 filled, pendingLen := filled.length }
      if read = [] then modify fun reader => { reader with eof := true } else pure ()
      let filled := filled ++ read
      let complete := filled.length / reader.width * reader.width
      if 0 < complete then do
        modify fun reader =>
          { reader with
            pendingLen := filled.length - complete
            pending := overwrite reader.pending 0 (filled.drop complete) }
        pure (swapGroupsScalar reader.width (filled.take complete))
      else do
        let reader ← get
        -- less than a group, and more may come
        if reader.eof then pure filled else readLarge n turns filled

def read : Reader (ByteSwapReader ρ) ε UInt8 := fun n => do
  let reader ← get
  if n = 0 then pure []
  else if 0 < reader.pendingOutputLength then fun reader =>
    (.ok (drainPendingOutput n reader).1, (drainPendingOutput n reader).2)
  else if n < reader.width then readSmall inner n
  else do
    modify fun reader => { reader with pendingLen := 0 }
    readLarge inner n (reader.width - reader.pendingLen) (reader.pending.take reader.pendingLen)

variable {inner}

theorem readInner_ok {n : ℕ} {reader : ByteSwapReader ρ} {items : List UInt8} {i : ρ}
    (h : inner n reader.inner = (.ok items, i)) :
    readInner inner n reader = (.ok items, { reader with inner := i }) := by
  rw [readInner, focus, h]

theorem readInner_error {n : ℕ} {reader : ByteSwapReader ρ} {e : ε} {i : ρ}
    (h : inner n reader.inner = (.error e, i)) :
    readInner inner n reader = (.error e, { reader with inner := i }) := by
  rw [readInner, focus, h]

variable {R : ρ → List UInt8 → Prop} {w : ℕ} {all : List UInt8}

/-- Nothing is waiting to be handed over, `filled` was read and is not yet a group, and together with
what is left to read it is `all`. -/
structure Gathers (R : ρ → List UInt8 → Prop) (w : ℕ) (all filled : List UInt8)
    (reader : ByteSwapReader ρ) : Prop where
  width : reader.width = w
  room : reader.pending.length = maxSwapWidth
  position : reader.pendingOutputPosition = 0
  length : reader.pendingOutputLength = 0
  left : ∃ rest, R reader.inner rest ∧ (reader.eof = true → rest = []) ∧ all = filled ++ rest

theorem Gathers.reads (h : Serves inner R) {filled : List UInt8} {reader : ByteSwapReader ρ}
    (hg : Gathers R w all filled reader) {n : ℕ} {items : List UInt8} {i : ρ}
    (hread : inner n reader.inner = (.ok items, i)) :
    items.length ≤ n ∧ Gathers R w all (filled ++ items) { reader with inner := i } ∧
      (items = [] → 0 < n → Gathers R w all filled { reader with inner := i, eof := true }) := by
  obtain ⟨rest, hrest, heof, hall⟩ := hg.left
  obtain ⟨hlength, hempty, rest', rfl, hrest'⟩ := (h n rest).ok hrest hread
  refine ⟨hlength, ⟨hg.width, hg.room, hg.position, hg.length, rest', hrest', ?_, ?_⟩, ?_⟩
  · intro he
    exact (List.append_eq_nil_iff.mp (heof he)).2
  · rw [List.append_assoc]
    exact hall
  · rintro rfl hn
    exact ⟨hg.width, hg.room, hg.position, hg.length, rest', hrest', fun _ => hempty rfl hn, hall⟩

theorem Gathers.fails (h : Serves inner R) {filled : List UInt8} {reader : ByteSwapReader ρ}
    (hg : Gathers R w all filled reader) {n : ℕ} {e : ε} {i : ρ}
    (hread : inner n reader.inner = (.error e, i)) :
    Gathers R w all filled { reader with inner := i } := by
  obtain ⟨rest, hrest, heof, hall⟩ := hg.left
  exact ⟨hg.width, hg.room, hg.position, hg.length, rest, (h n rest).error hrest hread, heof, hall⟩

/-- What the reader has still to hand over is `left`: what is waiting, and the groups of what it has
gathered and of what is left to read. -/
structure Carries (R : ρ → List UInt8 → Prop) (w : ℕ) (reader : ByteSwapReader ρ)
    (left : List UInt8) : Prop where
  width : reader.width = w
  room : reader.pending.length = maxSwapWidth
  gathered : reader.pendingLen < w
  waiting : 0 < reader.pendingOutputLength → reader.pendingLen = 0 ∧
    reader.pendingOutputPosition < reader.pendingOutputLength ∧
    reader.pendingOutputLength ≤ maxSwapWidth
  position : reader.pendingOutputLength = 0 → reader.pendingOutputPosition = 0
  left : ∃ rest, R reader.inner rest ∧ (reader.eof = true → rest = []) ∧
    left = (reader.pending.take reader.pendingOutputLength).drop reader.pendingOutputPosition ++
      reverseGroups w (reader.pending.take reader.pendingLen ++ rest)

theorem Gathers.carries {reader : ByteSwapReader ρ}
    (hg : Gathers R w all (reader.pending.take reader.pendingLen) reader)
    (hlen : reader.pendingLen < w) : Carries R w reader (reverseGroups w all) where
  width := hg.width
  room := hg.room
  gathered := hlen
  waiting := fun h => absurd hg.length h.ne'
  position := fun _ => hg.position
  left := by
    obtain ⟨rest, hrest, heof, hall⟩ := hg.left
    refine ⟨rest, hrest, heof, ?_⟩
    rw [hg.length, List.take_zero, List.drop_nil, List.nil_append, hall]

theorem Carries.gathers {reader : ByteSwapReader ρ} {left : List UInt8} (hc : Carries R w reader left)
    (hlength : reader.pendingOutputLength = 0) : ∃ all, left = reverseGroups w all ∧
      Gathers R w all (reader.pending.take reader.pendingLen) reader := by
  obtain ⟨rest, hrest, heof, hleft⟩ := hc.left
  rw [hlength, List.take_zero, List.drop_nil, List.nil_append] at hleft
  exact ⟨_, hleft, hc.width, hc.room, hc.position hlength, hlength, rest, hrest, heof, rfl⟩

theorem Carries.drain {reader : ByteSwapReader ρ} {left : List UInt8} (hc : Carries R w reader left)
    (hwaiting : 0 < reader.pendingOutputLength) (n : ℕ) :
    Gives (Carries R w) n left (drainPendingOutput n reader).1 (drainPendingOutput n reader).2 := by
  obtain ⟨hlen, hposition, hroom⟩ := hc.waiting hwaiting
  obtain ⟨rest, hrest, heof, hleft⟩ := hc.left
  rw [hlen, List.take_zero, List.nil_append] at hleft
  let waiting := (reader.pending.take reader.pendingOutputLength).drop reader.pendingOutputPosition
  let k := min (reader.pendingOutputLength - reader.pendingOutputPosition) n
  have hwait : waiting.length = reader.pendingOutputLength - reader.pendingOutputPosition := by
    rw [List.length_drop, List.length_take_of_le (hc.room ▸ hroom)]
  have hitems : (drainPendingOutput n reader).1 = waiting.take k := by
    change (reader.pending.drop reader.pendingOutputPosition).take k =
      List.take k (List.drop _ (List.take _ _))
    rw [List.drop_take, List.take_take, min_eq_left (min_le_left _ _)]
  have hk : (waiting.take k).length = k := List.length_take_of_le (hwait ▸ min_le_left _ _)
  rw [hitems]
  refine ⟨hk.trans_le (min_le_right _ _), ?_, waiting.drop k ++ reverseGroups w rest, ?_, ?_⟩
  · intro hnil hn
    rw [hnil, List.length_nil] at hk
    omega
  · rw [← List.append_assoc, List.take_append_drop, hleft]
  · rw [drainPendingOutput]
    split
    · rename_i hall
      have hdone : waiting.drop k = [] := List.drop_eq_nil_of_le (by omega)
      refine ⟨hc.width, hc.room, hc.gathered, fun h => absurd rfl h.ne', fun _ => rfl, rest, hrest,
        heof, ?_⟩
      rw [hdone, hlen, List.take_zero]
      rfl
    · rename_i hmore
      refine ⟨hc.width, hc.room, hc.gathered, fun _ => ⟨hlen, by dsimp only; omega, hroom⟩,
        fun h => absurd h hwaiting.ne', rest, hrest, heof, ?_⟩
      rw [hlen, List.take_zero, List.nil_append, List.drop_drop]

theorem fillPending_meets (h : Serves inner R) (hw : w ≤ maxSwapWidth) : ∀ turns,
    Meets (fun reader : ByteSwapReader ρ =>
        Gathers R w all (reader.pending.take reader.pendingLen) reader ∧
          reader.pendingLen ≤ w ∧ (w ≤ reader.pendingLen + turns ∨ reader.eof = true))
      (fillPending inner turns)
      (fun _ reader => Gathers R w all (reader.pending.take reader.pendingLen) reader ∧
        reader.pendingLen ≤ w ∧ (reader.pendingLen = w ∨ reader.eof = true))
      (fun _ reader => Gathers R w all (reader.pending.take reader.pendingLen) reader ∧
        reader.pendingLen < w)
  | 0 => fun reader hr => ⟨hr.1, hr.2.1, hr.2.2.imp_left fun h => hr.2.1.antisymm h⟩
  | turns + 1 => by
    refine Meets.get_bind fun reader hr => Outcome.ite (fun hcond => ?_) fun hcond => ?_
    · obtain ⟨hg, hle, hturns⟩ := hr
      obtain ⟨hlt, heof⟩ := hcond
      rcases hread : inner (reader.width - reader.pendingLen) reader.inner with ⟨e | items, i⟩
      · rw [bind_of_error (readInner_error hread)]
        exact ⟨hg.fails h hread, hg.width ▸ hlt⟩
      · rw [bind_of_ok (readInner_ok hread)]
        obtain ⟨hlength, hmore, hend⟩ := hg.reads h hread
        rw [hg.width] at hlt hlength
        by_cases hnil : items = []
        · rw [if_pos hnil]
          exact fillPending_meets h hw turns _ ⟨hend hnil (by rw [hg.width]; omega), hle, .inr rfl⟩
        · rw [if_neg hnil]
          have hpos := List.length_pos_iff.mpr hnil
          have hroom : reader.pendingLen + items.length ≤ reader.pending.length := by
            rw [hg.room]
            omega
          have hturns : w ≤ reader.pendingLen + items.length + turns := by
            rcases hturns with hturns | hdone
            · omega
            · exact absurd (heof.symm.trans hdone) (by decide)
          refine fillPending_meets h hw turns _ ⟨?_, by dsimp only; omega, .inl hturns⟩
          refine ⟨hg.width, ?_, hg.position, hg.length, ?_⟩
          · exact (length_overwrite hroom).trans hg.room
          · dsimp only
            rw [take_overwrite ((Nat.le_add_right _ _).trans hroom)]
            exact hmore.left
    · obtain ⟨hg, hle, hturns⟩ := hr
      refine ⟨hg, hle, ?_⟩
      rw [hg.width] at hcond
      by_cases hlt : reader.pendingLen < w
      · exact .inr (by simpa [hlt] using hcond)
      · exact .inl (by omega)

theorem Gathers.waits {filled : List UInt8} {reader : ByteSwapReader ρ}
    (hg : Gathers R w all filled reader) (hlen : 0 < reader.pendingLen)
    (hle : reader.pendingLen ≤ maxSwapWidth) (hw : 0 < w)
    (hout : ∀ rest, all = filled ++ rest → (reader.eof = true → rest = []) →
      reverseGroups w all = reader.pending.take reader.pendingLen ++ reverseGroups w rest) :
    Carries R w { reader with pendingOutputLength := reader.pendingLen, pendingLen := 0 }
      (reverseGroups w all) where
  width := hg.width
  room := hg.room
  gathered := hw
  waiting := fun _ => ⟨rfl, hg.position.trans_lt hlen, hle⟩
  position := fun _ => hg.position
  left := by
    obtain ⟨rest, hrest, heof, hall⟩ := hg.left
    refine ⟨rest, hrest, heof, ?_⟩
    rw [hout rest hall heof, hg.position, List.drop_zero, List.take_zero, List.nil_append]

theorem readSmall_meets (h : Serves inner R) (hw : w = 2 ∨ w = 4) (n : ℕ) (left : List UInt8) :
    Meets (fun reader : ByteSwapReader ρ => Carries R w reader left ∧ reader.pendingOutputLength = 0)
      (readSmall inner n) (Gives (Carries R w) n left) (fun _ reader => Carries R w reader left) := by
  have hw' : w ≤ maxSwapWidth := by
    rw [maxSwapWidth]
    omega
  refine Meets.get_bind fun reader hr => Outcome.ite (fun hwait => ?_) fun hwait => ?_
  · exact absurd hr.2 hwait.ne'
  obtain ⟨all, rfl, hg⟩ := hr.1.gathers hr.2
  have hlt := hr.1.gathered
  have hfill := @fillPending_meets _ _ _ _ _ all h hw' (reader.width - reader.pendingLen) reader
    ⟨hg, hlt.le, .inl (by rw [hg.width]; omega)⟩
  rcases hrun : fillPending inner (reader.width - reader.pendingLen) reader with ⟨e | _, reader'⟩
  · rw [hrun] at hfill
    rw [bind_of_error hrun]
    exact hfill.1.carries hfill.2
  · rw [hrun] at hfill
    rw [bind_of_ok hrun]
    obtain ⟨hg', hle, hfull⟩ := hfill
    refine Outcome.ite (fun hempty => ?_) fun hsome => ?_
    · obtain ⟨rest, hrest, heof, hall⟩ := hg'.left
      have hnil : all = [] := by
        rw [hall, hempty, heof (hfull.resolve_left (by omega))]
        rfl
      refine ⟨Nat.zero_le n, fun _ _ => ?_, _, rfl, hg'.carries (by omega)⟩
      rw [hnil, reverseGroups_short (Nat.zero_lt_of_lt hlt)]
    · have hlen : 0 < reader'.pendingLen := Nat.pos_of_ne_zero hsome
      have hroom : reader'.pendingLen ≤ reader'.pending.length := hg'.room ▸ hle.trans hw'
      by_cases hgroup : reader'.pendingLen = reader'.width
      · rw [if_pos hgroup]
        have hfull' : reader'.pendingLen = w := hgroup.trans hg'.width
        have hswap : swapGroupsScalar reader'.width (reader'.pending.take reader'.width) =
            reverseGroups w (reader'.pending.take reader'.pendingLen) := by
          rw [← hgroup, hfull', swapGroupsScalar_eq hw]
        have hlength : (reverseGroups w (reader'.pending.take reader'.pendingLen)).length =
            reader'.pendingLen := by
          rw [length_reverseGroups (Nat.zero_lt_of_lt hlt), List.length_take_of_le hroom]
        -- a full group is swapped in place
        have hover : Gathers R w all (reader'.pending.take reader'.pendingLen)
            { reader' with
              pending := overwrite reader'.pending 0
                (swapGroupsScalar reader'.width (reader'.pending.take reader'.width)) } := by
          refine ⟨hg'.width, ?_, hg'.position, hg'.length, hg'.left⟩
          rw [hswap, length_overwrite (by rw [hlength, Nat.zero_add]; exact hroom), hg'.room]
        refine (hover.waits hlen (hle.trans hw') (Nat.zero_lt_of_lt hlt) ?_).drain hlen n
        intro rest hall _
        have hdvd : w ∣ (reader'.pending.take reader'.pendingLen).length := by
          rw [List.length_take_of_le hroom, hfull']
        have hfront : (overwrite reader'.pending 0 (reverseGroups w
            (reader'.pending.take reader'.pendingLen))).take reader'.pendingLen =
              reverseGroups w (reader'.pending.take reader'.pendingLen) := by
          have hzero := take_overwrite_zero reader'.pending
            (reverseGroups w (reader'.pending.take reader'.pendingLen))
          rwa [hlength] at hzero
        rw [hall, reverseGroups_append (Nat.zero_lt_of_lt hlt) (tail_eq_nil hdvd), hswap]
        exact congrArg (· ++ _) hfront.symm
      · rw [if_neg hgroup]
        refine (hg'.waits hlen (hle.trans hw') (Nat.zero_lt_of_lt hlt) ?_).drain hlen n
        intro rest hall heof
        -- a short group comes at the end only, and stays as it is
        have hend : rest = [] := heof (hfull.resolve_left (hg'.width ▸ hgroup))
        have hshort : all.length < w := by
          rw [hall, hend, List.append_nil, List.length_take_of_le hroom]
          exact lt_of_le_of_ne hle (hg'.width ▸ hgroup)
        rw [reverseGroups_short hshort, hall, hend, reverseGroups_short (Nat.zero_lt_of_lt hlt)]

theorem Gathers.putBack {filled : List UInt8} {reader : ByteSwapReader ρ}
    (hg : Gathers R w all filled reader) (hlt : filled.length < w) (hw : w ≤ maxSwapWidth) :
    Carries R w { reader with pending := overwrite reader.pending 0 filled, pendingLen := filled.length }
      (reverseGroups w all) := by
  have hroom : 0 + filled.length ≤ reader.pending.length := by
    rw [hg.room]
    omega
  refine Gathers.carries ⟨hg.width, (length_overwrite hroom).trans hg.room, hg.position, hg.length, ?_⟩ hlt
  dsimp only
  rw [take_overwrite_zero]
  exact hg.left

theorem Gathers.complete {filled : List UInt8} {reader : ByteSwapReader ρ}
    (hg : Gathers R w all filled reader) (hw : w = 2 ∨ w = 4) {n complete : ℕ} (hn : filled.length ≤ n)
    (hcomplete : filled.length / w * w = complete) (hpos : 0 < complete) :
    Gives (Carries R w) n (reverseGroups w all) (swapGroupsScalar w (filled.take complete))
      { reader with
        pendingLen := filled.length - complete
        pending := overwrite reader.pending 0 (filled.drop complete) } := by
  have hw' : 0 < w ∧ w ≤ maxSwapWidth := by
    rw [maxSwapWidth]
    omega
  have hle : complete ≤ filled.length := hcomplete ▸ Nat.div_mul_le_self _ _
  have hlength : (reverseGroups w (filled.take complete)).length = complete := by
    rw [length_reverseGroups hw'.1, List.length_take_of_le hle]
  have hdvd : w ∣ (filled.take complete).length := by
    rw [List.length_take_of_le hle, ← hcomplete]
    exact Nat.dvd_mul_left _ _
  have htail : (filled.drop complete).length < w := by
    have hshort := tail_length hw'.1 filled
    rwa [tail, hcomplete] at hshort
  obtain ⟨rest, hrest, heof, hall⟩ := hg.left
  have hback := @Gathers.putBack _ _ _ (filled.drop complete ++ rest) _ _
    ⟨hg.width, hg.room, hg.position, hg.length, rest, hrest, heof, rfl⟩ htail hw'.2
  rw [swapGroupsScalar_eq hw]
  refine ⟨hlength.trans_le (hle.trans hn), fun hnil _ => ?_, reverseGroups w (filled.drop complete ++ rest),
    ?_, ?_⟩
  · rw [hnil, List.length_nil] at hlength
    omega
  · rw [← reverseGroups_append hw'.1 (tail_eq_nil hdvd), ← List.append_assoc, List.take_append_drop, hall]
  · rwa [List.length_drop] at hback

theorem readLarge_meets (h : Serves inner R) (hw : w = 2 ∨ w = 4) {n : ℕ} (hn : w ≤ n) :
    ∀ (turns : ℕ) (filled : List UInt8), filled.length < w → w ≤ filled.length + turns →
      Meets (fun reader : ByteSwapReader ρ => Gathers R w all filled reader ∧ reader.pendingLen = 0)
        (readLarge inner n turns filled) (Gives (Carries R w) n (reverseGroups w all))
        (fun _ reader => Carries R w reader (reverseGroups w all))
  | 0, filled => fun hlt hturns => by omega
  | turns + 1, filled => by
    intro hlt hturns
    have hpos : 0 < w := Nat.zero_lt_of_lt hlt
    -- at the end the bytes that are left are handed over as they are
    have hend : ∀ reader : ByteSwapReader ρ, Gathers R w all filled reader → reader.pendingLen = 0 →
        reader.eof = true → Gives (Carries R w) n (reverseGroups w all) filled reader := by
      intro reader hg hlen heof
      obtain ⟨rest, hrest, hnil, hall⟩ := hg.left
      rw [hnil heof, List.append_nil] at hall
      subst hall
      rw [reverseGroups_short hlt]
      refine ⟨(hlt.trans_le hn).le, fun hempty _ => hempty, [], (List.append_nil _).symm, ?_⟩
      have hc : Carries R w reader (reverseGroups w []) :=
        Gathers.carries ⟨hg.width, hg.room, hg.position, hg.length, rest, hrest, hnil, by
          rw [hlen, hnil heof]
          rfl⟩ (by omega)
      rwa [reverseGroups_short hpos] at hc
    refine Meets.get_bind fun reader hr => Outcome.ite (fun heof => ?_) fun heof => ?_
    · exact hend reader hr.1 hr.2 heof
    · obtain ⟨hg, hlen⟩ := hr
      have hw' : w ≤ maxSwapWidth := by
        rw [maxSwapWidth]
        omega
      rcases hread : inner (n - filled.length) reader.inner with ⟨e | items, i⟩
      · rw [bind_of_error (onError_of_error (readInner_error hread))]
        exact (hg.fails h hread).putBack hlt hw'
      · rw [bind_of_ok (onError_of_ok (readInner_ok hread))]
        obtain ⟨hlength, hmore, hlast⟩ := hg.reads h hread
        by_cases hnil : items = []
        · subst hnil
          have hshort : ¬0 < (filled ++ []).length / reader.width * reader.width := by
            rw [List.append_nil, hg.width, Nat.div_eq_of_lt hlt, Nat.zero_mul]
            exact Nat.lt_irrefl 0
          rw [if_pos rfl]
          refine Outcome.ite (fun hcomplete => absurd hcomplete hshort) fun _ => ?_
          refine Outcome.ite (fun _ => ?_) fun hmore => absurd rfl hmore
          rw [List.append_nil]
          exact hend _ (hlast rfl (by omega)) hlen rfl
        · rw [if_neg hnil]
          have hsome := List.length_pos_iff.mpr hnil
          refine Outcome.ite (fun hcomplete => ?_) fun hcomplete => ?_
          · obtain rfl := hg.width
            have hfits : (filled ++ items).length ≤ n := by
              rw [List.length_append]
              omega
            exact hmore.complete hw hfits rfl hcomplete
          · rw [hg.width] at hcomplete
            have hshort : (filled ++ items).length < w := by
              by_contra hlong
              exact hcomplete (Nat.mul_pos (Nat.div_pos (by omega) hpos) hpos)
            refine Outcome.ite (fun hdone => absurd hdone heof) fun _ => ?_
            refine readLarge_meets h hw hn turns (filled ++ items) hshort ?_ _ ⟨hmore, hlen⟩
            rw [List.length_append]
            omega

theorem read_serves (h : Serves inner R) (hw : w = 2 ∨ w = 4) : Serves (read inner) (Carries R w) := by
  intro n left
  refine Meets.get_bind fun reader hc => ?_
  refine Outcome.ite (fun hn => ?_) fun hn => Outcome.ite (fun hwait => ?_) fun hwait =>
    Outcome.ite (fun hsmall => ?_) fun hlarge => ?_
  · refine ⟨Nat.zero_le n, fun _ hpos => absurd hn hpos.ne', left, rfl, hc⟩
  · exact hc.drain hwait n
  · exact readSmall_meets h hw n left reader ⟨hc, Nat.eq_zero_of_not_pos hwait⟩
  · have hlength := Nat.eq_zero_of_not_pos hwait
    obtain ⟨all, rfl, hg⟩ := hc.gathers hlength
    rw [hc.width] at hlarge
    have hroom : (reader.pending.take reader.pendingLen).length = reader.pendingLen := by
      refine List.length_take_of_le ?_
      have hlt := hc.gathered
      rw [hc.room, maxSwapWidth]
      omega
    refine readLarge_meets h hw (not_lt.mp hlarge) _ _ ?_ ?_ _
      ⟨⟨hg.width, hg.room, hg.position, hg.length, hg.left⟩, rfl⟩
    · rw [hroom]
      exact hc.gathered
    · rw [hroom, hc.width]
      omega

theorem new_carries (hw : w = 2 ∨ w = 4) {source : ρ} {input : List UInt8} (hs : R source input) :
    Carries R w (new source w) (reverseGroups w input) where
  width := rfl
  room := List.length_replicate
  gathered := by
    change 0 < w
    omega
  waiting := fun h => absurd h (Nat.lt_irrefl 0)
  position := fun _ => rfl
  left := ⟨input, hs, fun h => absurd h Bool.false_ne_true, rfl⟩

/-- Whatever the reads of the inner reader and of the caller are, and also when some of them fail, the
filter hands over the groups of the input reversed and the tail as it is, and reports the end after all
of that; as many calls as there are bytes get them all. Behind itself the filter gives the input back. -/
theorem reverses_groups (h : Serves inner R) (hw : w = 2 ∨ w = 4) {source : ρ} {input : List UInt8}
    (hs : R source input) (sizes : List ℕ) :
    (delivered (runAll (read inner) sizes (new source w)).1 <+: reverseGroups w input ∧
      (∀ n, 0 < n → (read inner n (runAll (read inner) sizes (new source w)).2).1 = .ok [] →
        delivered (runAll (read inner) sizes (new source w)).1 = reverseGroups w input) ∧
      ((∀ n ∈ sizes, 0 < n) → input.length ≤ sizes.length →
        (∀ o ∈ (runAll (read inner) sizes (new source w)).1, ∃ items, o = .ok items) →
        delivered (runAll (read inner) sizes (new source w)).1 = reverseGroups w input)) ∧
    reverseGroups w (reverseGroups w input) = input ∧
    delivered (runAll (read (read inner)) sizes (new (new source w) w)).1 <+: input ∧
    (∀ n, 0 < n →
      (read (read inner) n (runAll (read (read inner)) sizes (new (new source w) w)).2).1 = .ok [] →
      delivered (runAll (read (read inner)) sizes (new (new source w) w)).1 = input) := by
  have hpos : 0 < w := by omega
  have honce := read_serves h hw
  have htwice := read_serves honce hw
  have hstart := new_carries hw hs
  have hstart' := new_carries hw hstart
  rw [reverseGroups_reverseGroups hpos] at hstart'
  refine ⟨⟨honce.run_prefix sizes hstart, fun n hn hend => ?_, fun hroom hlong hok => ?_⟩,
    reverseGroups_reverseGroups hpos input, htwice.run_prefix sizes hstart', fun n hn hend => ?_⟩
  · exact honce.run_end sizes hstart hn (Prod.ext hend rfl)
  · refine honce.run_complete sizes hstart hroom hok ?_
    rwa [length_reverseGroups hpos]
  · exact htwice.run_end sizes hstart' hn (Prod.ext hend rfl)

/-- A source that fails once and then gives one byte at a time. -/
theorem reverses_groups_short_reads :
    delivered (runAll (read Scripted.read) [1, 3, 1, 9, 2]
      (new (⟨[1, 2, 3, 4, 5, 6], [.error (), .ok 0, .ok 0]⟩ : Scripted Unit UInt8) 4)).1 <+:
        reverseGroups 4 [1, 2, 3, 4, 5, 6] :=
  (reverses_groups Scripted.serves (.inr rfl) rfl [1, 3, 1, 9, 2]).1.1

end ByteSwapReader

end R7z
