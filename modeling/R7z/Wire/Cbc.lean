import Mathlib.Data.List.GetD
import R7z.Order.Groups

/-! Cipher block chaining over a permutation of blocks, and lists of bytes as blocks. -/

namespace Cbc

open Groups

section
variable {B : Type} (mix : B → B → B)

/-- Each block is mixed with the block that came out before it, the first one with `chain`. -/
def encryptBlocks (E : B → B) : (chain : B) → List B → List B
  | _, [] => []
  | chain, p :: ps => E (mix p chain) :: encryptBlocks E (E (mix p chain)) ps

def decryptBlocks (D : B → B) : (chain : B) → List B → List B
  | _, [] => []
  | chain, c :: cs => mix (D c) chain :: decryptBlocks D c cs

def lastBlock : (chain : B) → List B → B
  | chain, [] => chain
  | _, c :: cs => lastBlock c cs

theorem lastBlock_append (chain : B) (cs ds : List B) :
    lastBlock chain (cs ++ ds) = lastBlock (lastBlock chain cs) ds := by
  induction cs generalizing chain with
  | nil => rfl
  | cons c cs ih => exact ih c

theorem encryptBlocks_append (E : B → B) (chain : B) (ps qs : List B) :
    encryptBlocks mix E chain (ps ++ qs) = encryptBlocks mix E chain ps ++
      encryptBlocks mix E (lastBlock chain (encryptBlocks mix E chain ps)) qs := by
  induction ps generalizing chain with
  | nil => rfl
  | cons p ps ih => exact congrArg (_ :: ·) (ih _)

theorem decryptBlocks_append (D : B → B) (chain : B) (cs ds : List B) :
    decryptBlocks mix D chain (cs ++ ds) =
      decryptBlocks mix D chain cs ++ decryptBlocks mix D (lastBlock chain cs) ds := by
  induction cs generalizing chain with
  | nil => rfl
  | cons c cs ih => exact congrArg (_ :: ·) (ih c)

theorem length_encryptBlocks (E : B → B) (chain : B) (ps : List B) :
    (encryptBlocks mix E chain ps).length = ps.length := by
  induction ps generalizing chain with
  | nil => rfl
  | cons p ps ih => exact congrArg (· + 1) (ih _)

theorem length_decryptBlocks (D : B → B) (chain : B) (cs : List B) :
    (decryptBlocks mix D chain cs).length = cs.length := by
  induction cs generalizing chain with
  | nil => rfl
  | cons c cs ih => exact congrArg (· + 1) (ih c)

theorem decrypt_encryptBlocks (hmix : ∀ a b, mix (mix a b) b = a) (E : Equiv.Perm B) (chain : B)
    (ps : List B) : decryptBlocks mix E.symm chain (encryptBlocks mix E chain ps) = ps := by
  induction ps generalizing chain with
  | nil => rfl
  | cons p ps ih => rw [encryptBlocks, decryptBlocks, ih, E.symm_apply_apply, hmix]

end

/-! Bytes -/

variable {w : ℕ}

def block (w : ℕ) (bytes : List UInt8) : Vector UInt8 w := Vector.ofFn fun i => bytes.getD i 0

def xorBlock (a b : Vector UInt8 w) : Vector UInt8 w := Vector.zipWith (· ^^^ ·) a b

theorem xorBlock_xorBlock (a b : Vector UInt8 w) : xorBlock (xorBlock a b) b = a := by
  apply Vector.ext
  intro i hi
  rw [xorBlock, xorBlock, Vector.getElem_zipWith, Vector.getElem_zipWith, UInt8.xor_assoc,
    UInt8.xor_self, UInt8.xor_zero]

theorem toList_block {bytes : List UInt8} (h : bytes.length = w) : (block w bytes).toList = bytes := by
  subst h
  rw [block, Vector.toList_ofFn]
  apply List.ext_getElem
  · rw [List.length_ofFn]
  · intro i hi hi'
    rw [List.getElem_ofFn, List.getD_eq_getElem _ _ hi']

theorem toList_block_pad {bytes : List UInt8} (h : bytes.length ≤ w) :
    (block w bytes).toList = bytes ++ List.replicate (w - bytes.length) 0 := by
  have hfull : (bytes ++ List.replicate (w - bytes.length) (0 : UInt8)).length = w := by
    rw [List.length_append, List.length_replicate]
    omega
  rw [← toList_block hfull]
  congr 1
  unfold block
  congr 1
  funext i
  rcases Nat.lt_or_ge i bytes.length with hi | hi
  · rw [List.getD_append _ _ _ _ hi]
  · have hzero : i.val - bytes.length < w - bytes.length := by omega
    rw [List.getD_append_right _ _ _ _ hi, List.getD_eq_default _ _ hi, List.getD_replicate 0 hzero]

def blocks (w : ℕ) (bytes : List UInt8) : List (Vector UInt8 w) := (groups w bytes).map (block w)

def bytes (bs : List (Vector UInt8 w)) : List UInt8 := bs.flatMap Vector.toList

theorem bytes_append (bs cs : List (Vector UInt8 w)) : bytes (bs ++ cs) = bytes bs ++ bytes cs :=
  List.flatMap_append

theorem bytes_singleton (b : Vector UInt8 w) : bytes [b] = b.toList := List.append_nil _

theorem length_bytes (bs : List (Vector UInt8 w)) : (bytes bs).length = bs.length * w := by
  induction bs with
  | nil => simp [bytes]
  | cons b bs ih =>
    rw [bytes, List.flatMap_cons, List.length_append, Vector.length_toList, List.length_cons,
      Nat.succ_mul, Nat.add_comm]
    exact congrArg (· + w) ih

theorem length_blocks (hw : 0 < w) (l : List UInt8) : (blocks w l).length = l.length / w := by
  have hlength := congrArg List.length (groups_append_tail hw l)
  rw [List.length_append, (groups_grouped l).length_flatten] at hlength
  rw [blocks, List.length_map, ← hlength, Nat.mul_comm, Nat.mul_add_div hw,
    Nat.div_eq_of_lt (tail_length hw l), Nat.add_zero]

theorem bytes_blocks (hw : 0 < w) {l : List UInt8} (h : w ∣ l.length) : bytes (blocks w l) = l := by
  conv_rhs => rw [← groups_append_tail hw l, tail_eq_nil h, List.append_nil]
  rw [bytes, blocks, List.flatMap_map, ← List.flatMap_id]
  apply List.flatMap_congr
  intro g hg
  exact toList_block (groups_grouped l g hg)

theorem blocks_bytes (hw : 0 < w) (bs : List (Vector UInt8 w)) : blocks w (bytes bs) = bs := by
  have hgrouped : Grouped w (bs.map Vector.toList) := by
    intro g hg
    obtain ⟨b, -, rfl⟩ := List.mem_map.mp hg
    exact Vector.length_toList
  have hgroups := groups_flatten hw hgrouped (t := []) hw
  rw [List.append_nil] at hgroups
  rw [blocks, bytes, List.flatMap_def, hgroups, List.map_map]
  conv_rhs => rw [← List.map_id bs]
  apply List.map_congr_left
  intro b _
  exact Vector.toList_inj.mp (toList_block Vector.length_toList)

theorem blocks_append (hw : 0 < w) (l m : List UInt8) :
    blocks w (l ++ m) = blocks w l ++ blocks w (tail w l ++ m) := by
  rw [blocks, groups_append hw, List.map_append]
  rfl

theorem blocks_short {l : List UInt8} (h : l.length < w) : blocks w l = [] := by
  have hempty := @groups_flatten _ _ (Nat.zero_lt_of_lt h) [] (fun _ hg => absurd hg List.not_mem_nil) _ h
  rw [List.flatten_nil, List.nil_append] at hempty
  rw [blocks, hempty, List.map_nil]

theorem blocks_single (hw : 0 < w) {l : List UInt8} (h : l.length = w) : blocks w l = [block w l] := by
  have hone := @groups_flatten _ _ hw [l] (fun g hg => List.mem_singleton.mp hg ▸ h) [] hw
  rw [List.flatten_singleton, List.append_nil] at hone
  rw [blocks, hone, List.map_singleton]

end Cbc
