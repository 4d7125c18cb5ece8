import Mathlib

/-! Lists of half-open intervals that lie end to end: they are disjoint, and together they are the
interval from the first start to the last end. -/

namespace Tiling

variable {α : Type*} [LinearOrder α]

/-- Each interval starts where the one before it ends. -/
inductive Tiles : α → α → List (α × α) → Prop where
  | nil (a : α) : Tiles a a []
  | cons {a b c : α} {rest : List (α × α)} (hab : a ≤ b) (tail : Tiles b c rest) :
    Tiles a c ((a, b) :: rest)

theorem Tiles.le {a c : α} {tiles : List (α × α)} (h : Tiles a c tiles) : a ≤ c := by
  induction h with
  | nil a => exact le_rfl
  | cons hab tail ih => exact hab.trans ih

theorem Tiles.append {a b c : α} {tiles more : List (α × α)} (h : Tiles a b tiles)
    (h' : Tiles b c more) : Tiles a c (tiles ++ more) := by
  induction h with
  | nil a => simpa using h'
  | cons hab tail ih => exact .cons hab (ih h')

theorem Tiles.bounds {a c : α} {tiles : List (α × α)} (h : Tiles a c tiles) :
    ∀ tile ∈ tiles, a ≤ tile.1 ∧ tile.1 ≤ tile.2 ∧ tile.2 ≤ c := by
  induction h with
  | nil a => simp
  | @cons a b c rest hab tail ih =>
    intro tile htile
    rcases List.mem_cons.mp htile with rfl | hrest
    · exact ⟨le_rfl, hab, tail.le⟩
    · obtain ⟨hstart, hle, hstop⟩ := ih tile hrest
      exact ⟨hab.trans hstart, hle, hstop⟩

theorem Tiles.disjoint {a c : α} {tiles : List (α × α)} (h : Tiles a c tiles) :
    tiles.Pairwise fun s t => Disjoint (Set.Ico s.1 s.2) (Set.Ico t.1 t.2) := by
  induction h with
  | nil a => exact List.Pairwise.nil
  | @cons a b c rest hab tail ih =>
    apply List.pairwise_cons.mpr
    constructor
    · intro tile htile
      apply Set.disjoint_left.mpr
      rintro x ⟨-, hxb⟩ ⟨htx, -⟩
      exact absurd (hxb.trans_le ((tail.bounds tile htile).1.trans htx)) (lt_irrefl x)
    · exact ih

theorem Tiles.cover {a c : α} {tiles : List (α × α)} (h : Tiles a c tiles) :
    {x | ∃ tile ∈ tiles, x ∈ Set.Ico tile.1 tile.2} = Set.Ico a c := by
  ext x
  constructor
  · rintro ⟨tile, htile, hstart, hstop⟩
    obtain ⟨hle, -, hle'⟩ := h.bounds tile htile
    exact ⟨hle.trans hstart, hstop.trans_le hle'⟩
  · rintro ⟨hax, hxc⟩
    induction h with
    | nil a => exact absurd (hax.trans_lt hxc) (lt_irrefl a)
    | @cons a b c rest hab tail ih =>
      -- A point before the first end is in the first tile; the others tile what lies behind it.
      rcases lt_or_ge x b with hxb | hbx
      · exact ⟨(a, b), List.mem_cons_self, hax, hxb⟩
      · obtain ⟨tile, htile, hx⟩ := ih hbx hxc
        exact ⟨tile, List.mem_cons_of_mem _ htile, hx⟩

structure Partition (a c : α) (tiles : List (α × α)) : Prop where
  consecutive : Tiles a c tiles
  disjoint : tiles.Pairwise fun s t => Disjoint (Set.Ico s.1 s.2) (Set.Ico t.1 t.2)
  cover : {x | ∃ tile ∈ tiles, x ∈ Set.Ico tile.1 tile.2} = Set.Ico a c

theorem Tiles.partition {a c : α} {tiles : List (α × α)} (h : Tiles a c tiles) :
    Partition a c tiles := ⟨h, h.disjoint, h.cover⟩

end Tiling
