import R7z.Order.Globs
import R7z.Write.Model

/-! Selection of entries by patterns: the table that is filled in one forward pass. -/

namespace R7z

open Globs

/-- A symbol of a name: names in archives may hold surrogates that are not part of a pair. -/
inductive NameSymbol where
  | Unicode (character : Char)
  | UnpairedSurrogate (unit : UInt16)
deriving DecidableEq, Repr

def NameSymbol.piece : NameSymbol → Piece NameSymbol
  | .Unicode '*' => .anything
  | .Unicode '?' => .one Set.univ
  | symbol => .one {symbol}

/-- A row for every front of the pattern, and in it a cell for every front of the text. -/
abbrev Matched (m n : ℕ) := Vector (Vector Bool (n + 1)) (m + 1)

namespace Matched

variable {m n : ℕ}

def cell (matched : Matched m n) (p : Fin (m + 1)) (t : Fin (n + 1)) : Bool := matched[p][t]

def mark (p : Fin (m + 1)) (t : Fin (n + 1)) (matched : Matched m n) : Matched m n :=
  matched.set p (matched[p].set t true)

def start : Matched m n := mark 0 0 (Vector.replicate (m + 1) (Vector.replicate (n + 1) false))

@[simp]
theorem cell_mark {matched : Matched m n} {p q : Fin (m + 1)} {t u : Fin (n + 1)} :
    (matched.mark p t).cell q u = true ↔ (q = p ∧ u = t) ∨ matched.cell q u = true := by
  unfold cell mark
  by_cases hq : q = p
  · subst hq
    by_cases hu : u = t
    · subst hu
      simp
    · have hne : (t : ℕ) ≠ u := fun h => hu (Fin.ext h.symm)
      simp [hu, Vector.getElem_set_ne, hne]
  · have hne : (p : ℕ) ≠ q := fun h => hq (Fin.ext h.symm)
    simp [hq, Vector.getElem_set_ne, hne]

@[simp]
theorem cell_start {p : Fin (m + 1)} {t : Fin (n + 1)} :
    (start : Matched m n).cell p t = true ↔ p = 0 ∧ t = 0 := by
  unfold start
  rw [cell_mark]
  simp [cell]

end Matched

variable (pattern text : List NameSymbol)

def wildcardCell (pIdx : Fin pattern.length) (matched : Matched pattern.length text.length)
    (tIdx : Fin (text.length + 1)) : Matched pattern.length text.length :=
  if matched.cell pIdx.castSucc tIdx = false then matched
  else
    match pattern[pIdx] with
    | .Unicode '*' =>
      let matched := matched.mark pIdx.succ tIdx
      if h : tIdx < text.length then matched.mark pIdx.castSucc ⟨tIdx + 1, Nat.succ_lt_succ h⟩ else matched
    | .Unicode '?' =>
      -- at the end of the text the next arm has the same guard
      if h : tIdx < text.length then matched.mark pIdx.succ ⟨tIdx + 1, Nat.succ_lt_succ h⟩ else matched
    | symbol =>
      if h : tIdx < text.length then
        if symbol = text[tIdx] then matched.mark pIdx.succ ⟨tIdx + 1, Nat.succ_lt_succ h⟩ else matched
      else matched

def wildcardRow (matched : Matched pattern.length text.length) (pIdx : Fin pattern.length) :
    Matched pattern.length text.length :=
  (List.finRange (text.length + 1)).foldl (wildcardCell pattern text pIdx) matched

def wildcardMatchSymbols : Bool :=
  let matched := (List.finRange pattern.length).foldl (wildcardRow pattern text) Matched.start
  matched.cell (Fin.last _) (Fin.last _)

variable {pattern text}

def FrontsMatch (pattern text : List NameSymbol) (p t : ℕ) : Prop :=
  Reaches (pattern.map NameSymbol.piece) text p t

/-- Before the row `p` is gone through: its cells are right, and the rows behind it are empty. -/
structure RowReady (pattern text : List NameSymbol) (p : ℕ)
    (matched : Matched pattern.length text.length) : Prop where
  row : ∀ (q : Fin (pattern.length + 1)) (t : Fin (text.length + 1)), (q : ℕ) = p →
    (matched.cell q t = true ↔ FrontsMatch pattern text p t)
  behind : ∀ (q : Fin (pattern.length + 1)) (t : Fin (text.length + 1)), p < q →
    ¬matched.cell q t = true

theorem start_ready : RowReady pattern text 0 Matched.start := by
  constructor
  · intro q t hq
    rw [Matched.cell_start, FrontsMatch, reaches_zero (Nat.le_of_lt_succ t.isLt)]
    simp [← Fin.val_eq_zero_iff, hq]
  · intro q t hq
    rw [Matched.cell_start]
    simp [← Fin.val_eq_zero_iff, hq.ne']

section Row

variable {p : Fin pattern.length} {matched : Matched pattern.length text.length}

/-- In the row of a star, before the cell `t`: what the row reached is handed on up to `t`, and the next
row has it before `t`. -/
structure StarScanned (p : Fin pattern.length) (matched : Matched pattern.length text.length) (t : ℕ) :
    Prop where
  row : ∀ u : Fin (text.length + 1), matched.cell p.castSucc u = true ↔
    FrontsMatch pattern text p u ∨ (u : ℕ) ≤ t ∧ FrontsMatch pattern text (p + 1) u
  next : ∀ u : Fin (text.length + 1), matched.cell p.succ u = true ↔
    (u : ℕ) < t ∧ FrontsMatch pattern text (p + 1) u
  behind : ∀ (q : Fin (pattern.length + 1)) (u : Fin (text.length + 1)), p.succ < q →
    ¬matched.cell q u = true

/-- In the row of another symbol, before the cell `t`: the next row is right up to `t`. -/
structure SymbolScanned (p : Fin pattern.length) (matched : Matched pattern.length text.length) (t : ℕ) :
    Prop where
  row : ∀ u : Fin (text.length + 1), matched.cell p.castSucc u = true ↔ FrontsMatch pattern text p u
  next : ∀ u : Fin (text.length + 1), matched.cell p.succ u = true ↔
    (u : ℕ) ≤ t ∧ FrontsMatch pattern text (p + 1) u
  behind : ∀ (q : Fin (pattern.length + 1)) (u : Fin (text.length + 1)), p.succ < q →
    ¬matched.cell q u = true

theorem getElem_piece {piece : Piece NameSymbol} (hpiece : pattern[p].piece = piece) :
    (pattern.map NameSymbol.piece)[(p : ℕ)]? = some piece := by
  simp [← hpiece]

theorem RowReady.starScanned (hready : RowReady pattern text p matched)
    (hpiece : pattern[p].piece = .anything) : StarScanned p matched 0 := by
  constructor
  · intro u
    rw [hready.row _ u rfl]
    constructor
    · exact Or.inl
    · rintro (h | ⟨hu, h⟩)
      · exact h
      · rw [Nat.le_zero.mp hu] at h ⊢
        exact (reaches_anything_zero (getElem_piece hpiece)).mp h
  · intro u
    simpa using hready.behind p.succ u (by simp)
  · intro q u hq
    exact hready.behind q u (lt_trans (by simp) hq)

theorem eq_star (hpiece : pattern[p].piece = .anything) : pattern[p] = .Unicode '*' := by
  unfold NameSymbol.piece at hpiece
  split at hpiece
  · assumption
  · cases hpiece
  · cases hpiece

variable {t : Fin (text.length + 1)} {q : Fin (pattern.length + 1)} {u : Fin (text.length + 1)}

/-- A star hands a reached cell down to the next row and on to the next cell. -/
theorem cell_star (hpiece : pattern[p].piece = .anything) :
    (wildcardCell pattern text p matched t).cell q u = true ↔
      matched.cell q u = true ∨ matched.cell p.castSucc t = true ∧
        (q = p.succ ∧ u = t ∨ q = p.castSucc ∧ (u : ℕ) = t + 1) := by
  unfold wildcardCell
  rw [eq_star hpiece]
  by_cases hcell : matched.cell p.castSucc t = true
  · by_cases ht : (t : ℕ) < text.length
    · simp [hcell, ht, Fin.ext_iff]
      tauto
    · have hu : (u : ℕ) ≠ t + 1 := by omega
      simp [hcell, ht, hu]
      tauto
  · simp [hcell]

theorem cell_symbol {allowed : Set NameSymbol} (hpiece : pattern[p].piece = .one allowed) :
    (wildcardCell pattern text p matched t).cell q u = true ↔
      matched.cell q u = true ∨ matched.cell p.castSucc t = true ∧
        q = p.succ ∧ (u : ℕ) = t + 1 ∧ ∃ h : (t : ℕ) < text.length, text[(t : ℕ)] ∈ allowed := by
  unfold NameSymbol.piece at hpiece
  unfold wildcardCell
  split at hpiece
  · cases hpiece
  · next hquestion =>
    obtain rfl := Piece.one.inj hpiece
    by_cases hcell : matched.cell p.castSucc t = true
    · by_cases ht : (t : ℕ) < text.length
      · simp [hquestion, hcell, ht, Fin.ext_iff]
        tauto
      · simp [hquestion, hcell, ht]
    · simp [hcell]
  · next hstar hquestion =>
    obtain rfl := Piece.one.inj hpiece
    by_cases hcell : matched.cell p.castSucc t = true
    · by_cases ht : (t : ℕ) < text.length
      · by_cases hsymbol : text[(t : ℕ)] = pattern[(p : ℕ)]
        · simp [hcell, ht, hsymbol, Fin.ext_iff]
          tauto
        · simp [hcell, ht, hsymbol, Ne.symm hsymbol]
      · simp [hcell, ht]
    · simp [hcell]

theorem StarScanned.cell_iff (hpiece : pattern[p].piece = .anything) (hscanned : StarScanned p matched t) :
    matched.cell p.castSucc t = true ↔ FrontsMatch pattern text (p + 1) t := by
  have ht : (t : ℕ) ≤ text.length := Nat.le_of_lt_succ t.isLt
  rw [hscanned.row, or_iff_right_of_imp]
  · exact and_iff_right le_rfl
  · exact fun h => ⟨le_rfl, (reaches_anything (getElem_piece hpiece) ht).mpr ⟨t, le_rfl, h⟩⟩

theorem StarScanned.step (hpiece : pattern[p].piece = .anything) (hscanned : StarScanned p matched t) :
    StarScanned p (wildcardCell pattern text p matched t) (t + 1) := by
  have hpiece' := getElem_piece hpiece
  have hcell := hscanned.cell_iff hpiece
  constructor
  · intro u
    rw [cell_star hpiece, hscanned.row, hcell]
    simp only [Fin.ext_iff, Fin.val_castSucc, Fin.val_succ]
    constructor
    · rintro ((h | ⟨hu, h⟩) | ⟨h, (⟨hq, -⟩ | ⟨-, hu⟩)⟩)
      · exact .inl h
      · exact .inr ⟨Nat.le_succ_of_le hu, h⟩
      · omega
      · refine .inr ⟨hu.le, ?_⟩
        rw [hu]
        exact (reaches_anything_succ hpiece' (by omega)).mpr (.inl h)
    · rintro (h | ⟨hu, h⟩)
      · exact .inl (.inl h)
      · rcases Nat.le_succ_iff.mp hu with hu | hu
        · exact .inl (.inr ⟨hu, h⟩)
        · have hsucc : (u : ℕ) = t + 1 := hu
          rw [hsucc] at h ⊢
          rcases (reaches_anything_succ hpiece' (by omega)).mp h with h | h
          · exact .inr ⟨h, .inr ⟨trivial, rfl⟩⟩
          · exact .inl (.inl h)
  · intro u
    rw [cell_star hpiece, hscanned.next, hcell]
    simp only [Fin.ext_iff, Fin.val_castSucc, Fin.val_succ]
    constructor
    · rintro (⟨hu, h⟩ | ⟨h, (⟨-, hu⟩ | ⟨hq, -⟩)⟩)
      · exact ⟨Nat.lt_succ_of_lt hu, h⟩
      · exact ⟨by omega, hu ▸ h⟩
      · omega
    · rintro ⟨hu, h⟩
      rcases Nat.lt_succ_iff_lt_or_eq.mp hu with hu | hu
      · exact .inl ⟨hu, h⟩
      · exact .inr ⟨hu ▸ h, .inl ⟨trivial, hu⟩⟩
  · intro q u hq
    rw [cell_star hpiece]
    rintro (h | ⟨-, (⟨rfl, -⟩ | ⟨rfl, -⟩)⟩)
    · exact hscanned.behind q u hq h
    · exact absurd hq (lt_irrefl _)
    · simp only [Fin.lt_def, Fin.val_succ, Fin.val_castSucc] at hq
      omega

theorem SymbolScanned.step {allowed : Set NameSymbol} (hpiece : pattern[p].piece = .one allowed)
    (hscanned : SymbolScanned p matched t) :
    SymbolScanned p (wildcardCell pattern text p matched t) (t + 1) := by
  have hpiece' := getElem_piece hpiece
  constructor
  · intro u
    rw [cell_symbol hpiece, hscanned.row]
    refine or_iff_left ?_
    rintro ⟨-, hq, -⟩
    simp [Fin.ext_iff] at hq
  · intro u
    rw [cell_symbol hpiece, hscanned.next, hscanned.row]
    constructor
    · rintro (⟨hu, h⟩ | ⟨h, -, hu, ht, hallowed⟩)
      · exact ⟨Nat.le_succ_of_le hu, h⟩
      · rw [hu]
        exact ⟨le_rfl, (reaches_one_succ hpiece' ht).mpr ⟨h, hallowed⟩⟩
    · rintro ⟨hu, h⟩
      rcases Nat.le_succ_iff.mp hu with hu | hu
      · exact .inl ⟨hu, h⟩
      · have hsucc : (u : ℕ) = t + 1 := hu
        have ht : (t : ℕ) < text.length := by omega
        rw [hsucc] at h
        obtain ⟨h, hallowed⟩ := (reaches_one_succ hpiece' ht).mp h
        exact .inr ⟨h, rfl, hsucc, ht, hallowed⟩
  · intro q u hq
    rw [cell_symbol hpiece]
    rintro (h | ⟨-, rfl, -⟩)
    · exact hscanned.behind q u hq h
    · exact lt_irrefl _ hq

theorem RowReady.symbolScanned {allowed : Set NameSymbol} (hready : RowReady pattern text p matched)
    (hpiece : pattern[p].piece = .one allowed) : SymbolScanned p matched 0 := by
  constructor
  · exact fun u => hready.row _ u rfl
  · intro u
    refine iff_of_false (hready.behind p.succ u (by simp)) ?_
    rintro ⟨hu, h⟩
    rw [Nat.le_zero.mp hu] at h
    exact not_reaches_one_zero (getElem_piece hpiece) h
  · intro q u hq
    exact hready.behind q u (lt_trans (by simp) hq)

/-- A row that is gone through leaves the next one ready. -/
theorem RowReady.step (hready : RowReady pattern text p matched) :
    RowReady pattern text (p + 1) (wildcardRow pattern text matched p) := by
  cases hpiece : pattern[p].piece with
  | anything =>
    have hscanned : StarScanned p (wildcardRow pattern text matched p) (text.length + 1) :=
      foldl_finRange (fun t matched => StarScanned p matched t) (fun t matched h => h.step hpiece)
        (hready.starScanned hpiece)
    constructor
    · intro q t hq
      obtain rfl : q = p.succ := Fin.ext hq
      rw [hscanned.next]
      exact and_iff_right t.isLt
    · exact hscanned.behind
  | one allowed =>
    have hscanned : SymbolScanned p (wildcardRow pattern text matched p) (text.length + 1) :=
      foldl_finRange (fun t matched => SymbolScanned p matched t) (fun t matched h => h.step hpiece)
        (hready.symbolScanned hpiece)
    constructor
    · intro q t hq
      obtain rfl : q = p.succ := Fin.ext hq
      rw [hscanned.next]
      exact and_iff_right t.isLt.le
    · exact hscanned.behind

end Row

/-- The table decides the language of the pattern, where `*` stands for any symbols, `?` for any one, and
everything else for itself. -/
theorem wildcard_match_symbols_iff (pattern text : List NameSymbol) :
    wildcardMatchSymbols pattern text = true ↔ text ∈ language (pattern.map NameSymbol.piece) := by
  have hready : RowReady pattern text pattern.length
      ((List.finRange pattern.length).foldl (wildcardRow pattern text) Matched.start) :=
    foldl_finRange (RowReady pattern text) (fun p matched h => h.step) start_ready
  have hall := @reaches_all NameSymbol (pattern.map NameSymbol.piece) text
  rw [List.length_map] at hall
  rw [← hall]
  exact hready.row (Fin.last _) (Fin.last _) rfl

example : wildcardMatchSymbols [.Unicode '*', .Unicode '?'] [.Unicode 'a', .UnpairedSurrogate 0xD800] = true := by
  rfl

/-! Names in UTF-16 -/

/-- `char::decode_utf16`: pairs of surrogates are one symbol, others are left as they are. -/
def decodeUtf16 : List UInt16 → List NameSymbol
  | [] => []
  | unit :: rest =>
    if unit < 0xD800 ∨ 0xDFFF < unit then .Unicode (Char.ofNat unit.toNat) :: decodeUtf16 rest
    else
      match rest with
      | [] => [.UnpairedSurrogate unit]
      | next :: after =>
        if 0xDC00 ≤ unit ∨ next < 0xDC00 ∨ 0xDFFF < next then
          .UnpairedSurrogate unit :: decodeUtf16 (next :: after)
        else
          .Unicode (Char.ofNat ((unit.toNat - 0xD800) * 0x400 + (next.toNat - 0xDC00) + 0x10000)) ::
            decodeUtf16 after

def unitsOf : List UInt8 → List UInt16
  | low :: high :: rest => UInt16.ofNat (low.toNat + 256 * high.toNat) :: unitsOf rest
  | _ => []

def displayName (bytes : List UInt8) : String :=
  String.ofList ((decodeUtf16 (unitsOf bytes)).map fun
    | .Unicode c => c
    | .UnpairedSurrogate _ => '\uFFFD')

def wildcardMatch (pattern text : String) : Bool :=
  wildcardMatchSymbols (pattern.toList.map .Unicode) (text.toList.map .Unicode)

def wildcardMatchRaw (pattern : String) (text : RawEntryName) : Bool :=
  wildcardMatchSymbols (pattern.toList.map .Unicode) (decodeUtf16 (unitsOf text.asUtf16le))

theorem unitsOf_utf16le (s : String) : unitsOf (utf16le s) = encodeUtf16 s := by
  unfold utf16le
  induction encodeUtf16 s with
  | nil => rfl
  | cons unit units ih =>
    have hunit : UInt16.ofNat (unit.toNat % 256 + 256 * (unit.toNat / 256 % 256)) = unit := by
      have := unit.toNat_lt
      rw [Nat.mod_eq_of_lt (show unit.toNat / 256 < 256 by omega), Nat.mod_add_div, UInt16.ofNat_toNat]
    have hbytes : toLeBytes 2 unit.toNat = [UInt8.ofNat unit.toNat, UInt8.ofNat (unit.toNat / 256)] := rfl
    rw [List.flatMap_cons, hbytes]
    simp [unitsOf, ih, hunit]

theorem decodeUtf16_scalar {unit : UInt16} (h : unit.toNat < 0xD800 ∨ 0xDFFF < unit.toNat)
    (rest : List UInt16) :
    decodeUtf16 (unit :: rest) = .Unicode (Char.ofNat unit.toNat) :: decodeUtf16 rest := by
  rw [decodeUtf16.eq_def]
  exact if_pos h

theorem decodeUtf16_pair {unit next : UInt16} (hhigh : 0xD800 ≤ unit.toNat ∧ unit.toNat < 0xDC00)
    (hlow : 0xDC00 ≤ next.toNat ∧ next.toNat ≤ 0xDFFF) (rest : List UInt16) :
    decodeUtf16 (unit :: next :: rest) =
      .Unicode (Char.ofNat ((unit.toNat - 0xD800) * 0x400 + (next.toNat - 0xDC00) + 0x10000)) ::
        decodeUtf16 rest := by
  have hsurrogate : ¬(unit < 0xD800 ∨ 0xDFFF < unit) := by
    change ¬(unit.toNat < 0xD800 ∨ 0xDFFF < unit.toNat)
    omega
  have hpair : ¬(0xDC00 ≤ unit ∨ next < 0xDC00 ∨ 0xDFFF < next) := by
    change ¬(0xDC00 ≤ unit.toNat ∨ next.toNat < 0xDC00 ∨ 0xDFFF < next.toNat)
    omega
  rw [decodeUtf16.eq_def]
  simp only [hsurrogate, hpair, if_false]

theorem decodeUtf16_char (c : Char) (units : List UInt16) :
    decodeUtf16 (charUtf16 c ++ units) = .Unicode c :: decodeUtf16 units := by
  have hvalid : c.toNat < 0xD800 ∨ 0xDFFF < c.toNat ∧ c.toNat < 0x110000 := c.valid
  unfold charUtf16
  split
  · next h =>
    have hunit : (UInt16.ofNat c.toNat).toNat = c.toNat := UInt16.toNat_ofNat_of_lt' h
    rw [List.singleton_append, decodeUtf16_scalar, hunit, Char.ofNat_toNat]
    rw [hunit]
    exact hvalid.imp_right And.left
  · next h =>
    set high := c.toNat - 0x10000 with hhigh
    have hfirst : (UInt16.ofNat (0xD800 + high / 0x400)).toNat = 0xD800 + high / 0x400 :=
      UInt16.toNat_ofNat_of_lt' (show _ < 2 ^ 16 by omega)
    have hsecond : (UInt16.ofNat (0xDC00 + high % 0x400)).toNat = 0xDC00 + high % 0x400 :=
      UInt16.toNat_ofNat_of_lt' (show _ < 2 ^ 16 by omega)
    have hscalar : high / 0x400 * 0x400 + high % 0x400 + 0x10000 = c.toNat := by omega
    rw [List.cons_append, List.singleton_append, decodeUtf16_pair (by omega) (by omega), hfirst, hsecond,
      Nat.add_sub_cancel_left, Nat.add_sub_cancel_left, hscalar, Char.ofNat_toNat]

theorem decodeUtf16_encodeUtf16 (s : String) : decodeUtf16 (encodeUtf16 s) = s.toList.map .Unicode := by
  unfold encodeUtf16
  induction s.toList with
  | nil => rfl
  | cons c cs ih => rw [List.flatMap_cons, decodeUtf16_char, ih, List.map_cons]

theorem wildcardMatchRaw_eq {pattern text : String} {name : RawEntryName}
    (hname : name.asUtf16le = utf16le text) : wildcardMatchRaw pattern name = wildcardMatch pattern text := by
  unfold wildcardMatchRaw wildcardMatch
  rw [hname, unitsOf_utf16le, decodeUtf16_encodeUtf16]

end R7z
