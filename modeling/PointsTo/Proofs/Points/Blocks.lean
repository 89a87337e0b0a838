import Mathlib.Data.List.Sort
import Mathlib.Data.Nat.Factorization.Basic
import PointsTo.Points.BitSet

/-! Dense sets, block by block: what the operations do to every element, what their flags tell, and
that an iteration lists the ones of all blocks in ascending order. -/
namespace PointsTo

namespace Block

variable {b : Block} {j : Nat}

theorem and_bit (b : Block) (hj : j < 64) : (b &&& 1#64 <<< j != 0#64) = b.getLsbD j := by
  have hne : BitVec.twoPow 64 j ≠ 0#64 := fun h => by
    have hj' := congrArg (BitVec.getLsbD · j) h
    simp [hj] at hj'
  rw [← BitVec.twoPow_eq, BitVec.and_twoPow]
  cases b.getLsbD j <;> simp [hne]

theorem getLsbD_bit (hj : j < 64) (l : Nat) : (1#64 <<< j).getLsbD l = decide (j = l) := by
  rw [← BitVec.twoPow_eq, BitVec.getLsbD_twoPow, decide_eq_true hj, Bool.true_and]

/-- A block that is not empty is an odd number, shifted to its lowest one. -/
theorem exists_toNat_eq (hb : b ≠ 0#64) : ∃ k m, k < 64 ∧ b.toNat = 2 ^ k * (2 * m + 1) := by
  have hne : b.toNat ≠ 0 := fun h => hb (BitVec.eq_of_toNat_eq (by simpa using h))
  obtain ⟨k, n, ⟨m, rfl⟩, heq⟩ := Nat.exists_eq_two_pow_mul_odd hne
  refine ⟨k, m, ?_, heq⟩
  have hle : 2 ^ k ≤ b.toNat := by
    rw [heq]
    exact Nat.le_mul_of_pos_right _ (by omega)
  exact (Nat.pow_lt_pow_iff_right (by decide)).1 (Nat.lt_of_le_of_lt hle b.isLt)

theorem testBit_odd (m i : Nat) :
    (2 * m + 1).testBit i = (decide (i = 0) || (2 * m).testBit i) := by
  cases i with
  | zero => simp [Nat.testBit_zero]
  | succ i => simp [Nat.testBit_succ, show (2 * m + 1) / 2 = m by omega]

/-- Only the lowest one stands in both a block and its negation. -/
theorem lowest_eq {k m : Nat} (hk : k < 64) (hb : b.toNat = 2 ^ k * (2 * m + 1)) :
    b.lowest = k := by
  have hlt : 2 * m + 1 < 2 ^ (64 - k) := by
    refine (Nat.mul_lt_mul_left (Nat.two_pow_pos k)).1 ?_
    rw [← hb, ← Nat.pow_add, Nat.add_sub_cancel' (Nat.le_of_lt hk)]
    exact b.isLt
  have hneg : (-b).toNat = 2 ^ k * (2 ^ (64 - k) - (2 * m + 1)) := by
    have hpow : 2 ^ k * 2 ^ (64 - k) = 2 ^ 64 := by
      rw [← Nat.pow_add, Nat.add_sub_cancel' (Nat.le_of_lt hk)]
    have hpos : 0 < b.toNat := hb ▸ Nat.mul_pos (Nat.two_pow_pos k) (by omega)
    rw [BitVec.toNat_neg, Nat.mod_eq_of_lt (by omega), Nat.mul_sub, hpow, ← hb]
  have hone : (b &&& -b).toNat = 2 ^ k := by
    refine Nat.eq_of_testBit_eq fun i => ?_
    rw [BitVec.toNat_and, Nat.testBit_and, hneg, hb, Nat.testBit_two_pow_mul,
      Nat.testBit_two_pow_mul, Nat.testBit_two_pow_sub_succ (by omega), testBit_odd,
      Nat.testBit_two_pow]
    by_cases hi : k ≤ i
    · by_cases heq : i = k
      · subst heq
        simp [Nat.testBit_zero, Nat.sub_pos_of_lt hk]
      · have hrest : ∀ x y : Bool, (x && (y && !x)) = false := by decide
        simp [hi, show i - k ≠ 0 by omega, Ne.symm heq, hrest]
    · simp [hi, show k ≠ i by omega]
  rw [lowest, hone, Nat.log2_two_pow]

/-- Taking one off clears the lowest one and, as far as both blocks have a one, nothing else. -/
theorem getLsbD_clear {k m : Nat} (hb : b.toNat = 2 ^ k * (2 * m + 1)) (j : Nat) :
    (b &&& (b - 1#64)).getLsbD j = (b.getLsbD j && decide (j ≠ k)) := by
  have hpos : 0 < 2 ^ k := Nat.two_pow_pos k
  have hsub : (b - 1#64).toNat = 2 ^ k * (2 * m) + (2 ^ k - 1) := by
    have hle : 0 < b.toNat := hb ▸ Nat.mul_pos hpos (by omega)
    have hlt := b.isLt
    rw [BitVec.toNat_sub_of_le (by simpa [BitVec.le_def] using Nat.succ_le_of_lt hle), hb, Nat.mul_add]
    simp
    omega
  rw [BitVec.getLsbD_and, ← BitVec.testBit_toNat b, ← BitVec.testBit_toNat (b - 1#64), hsub, hb,
    Nat.testBit_two_pow_mul_add _ (by omega), Nat.testBit_two_pow_mul, testBit_odd]
  by_cases hj : j < k
  · simp [hj, Nat.not_le.2 hj]
  · by_cases heq : j = k
    · subst heq
      simp [Nat.testBit_zero]
    · simp [hj, heq, show k ≤ j by omega, show j - k ≠ 0 by omega]

/-- The positions of the ones of a block, in ascending order. -/
def ones (b : Block) : List Nat := (List.range 64).filter b.getLsbD

theorem mem_ones : j ∈ b.ones ↔ b.getLsbD j = true := by
  rw [ones, List.mem_filter, List.mem_range]
  exact ⟨And.right, fun h => ⟨BitVec.lt_of_getLsbD h, h⟩⟩

theorem pairwise_ones (b : Block) : b.ones.Pairwise (· < ·) := List.pairwise_lt_range.filter _

@[simp]
theorem ones_zero : ones 0#64 = [] := by
  refine List.eq_nil_iff_forall_not_mem.2 fun j hj => ?_
  simp [mem_ones] at hj

/-- The lowest one comes first, and the others are left when it is cleared. -/
theorem ones_eq_cons (hb : b ≠ 0#64) : b.ones = b.lowest :: ones (b &&& (b - 1#64)) := by
  obtain ⟨k, m, hk, heq⟩ := exists_toNat_eq hb
  have hclear : ∀ j, j ∈ ones (b &&& (b - 1#64)) ↔ j ∈ b.ones ∧ j ≠ k := fun j => by
    rw [mem_ones, mem_ones, getLsbD_clear heq]
    simp
  have hbit : ∀ j, b.getLsbD j = true → k ≤ j := fun j hj => by
    rw [← BitVec.testBit_toNat, heq, Nat.testBit_two_pow_mul] at hj
    simpa using (Bool.and_eq_true_iff.1 hj).1
  have hself : k ∈ b.ones := by
    rw [mem_ones, ← BitVec.testBit_toNat, heq, Nat.testBit_two_pow_mul]
    simp [Nat.testBit_zero]
  rw [lowest_eq hk heq]
  refine (pairwise_ones b).eq_of_mem_iff ?_ fun j => ?_
  · refine List.pairwise_cons.2 ⟨fun j hj => ?_, pairwise_ones _⟩
    obtain ⟨hj, hne⟩ := (hclear j).1 hj
    exact Nat.lt_of_le_of_ne (hbit j (mem_ones.1 hj)) (Ne.symm hne)
  · rw [List.mem_cons, hclear]
    by_cases hj : j = k
    · simp [hj, hself]
    · simp [hj]

theorem cpopNatRec_eq (b : Block) (n : Nat) :
    b.cpopNatRec n 0 = ((List.range n).filter b.getLsbD).length := by
  induction n with
  | zero => rfl
  | succ n ih =>
    rw [BitVec.cpopNatRec_succ, BitVec.cpopNatRec_add, ih, List.range_succ, List.filter_append,
      List.length_append]
    cases h : b.getLsbD n <;> simp [h]

theorem toNat_cpop (b : Block) : b.cpop.toNat = b.ones.length :=
  (BitVec.toNat_cpop b).trans (cpopNatRec_eq b 64)

end Block

namespace BitSet

variable {s t : BitSet} {blocks : Array Block} {i j k n : Nat}

theorem contains_eq (s : BitSet) (i : Nat) :
    s.contains i = (blockAt s.blocks (i / 64)).getLsbD (i % 64) := by
  simp only [contains, locate, blockAt]
  cases s.blocks[i / 64]? with
  | none => simp
  | some b => exact Block.and_bit b (Nat.mod_lt i (by decide))

/-- Blocks are equal if they agree on every element. -/
theorem forall_block_eq_iff {F G : Nat → Block} : (∀ k, F k = G k) ↔
    ∀ i, (F (i / 64)).getLsbD (i % 64) = (G (i / 64)).getLsbD (i % 64) := by
  constructor
  · intro h i
    rw [h]
  · intro h k
    refine BitVec.eq_of_getLsbD_eq fun j hj => ?_
    have hbit := h (64 * k + j)
    rwa [show (64 * k + j) / 64 = k by omega, show (64 * k + j) % 64 = j by omega] at hbit

theorem size_resize (blocks : Array Block) (n : Nat) :
    (resize blocks n).size = max blocks.size n := by
  rw [resize, Array.size_append, Array.size_replicate]
  omega

theorem blockAt_of_size_le (h : blocks.size ≤ k) : blockAt blocks k = 0#64 := by
  rw [blockAt, Array.getElem?_eq_none h, Option.getD_none]

@[simp]
theorem blockAt_resize (blocks : Array Block) (n k : Nat) :
    blockAt (resize blocks n) k = blockAt blocks k := by
  by_cases hk : k < blocks.size
  · rw [blockAt, resize, Array.getElem?_append_left hk, blockAt]
  · have hle : blocks.size ≤ k := Nat.le_of_not_lt hk
    rw [blockAt_of_size_le hle, blockAt, resize, Array.getElem?_append_right hle,
      Array.getElem?_replicate]
    split <;> rfl

theorem blockAt_set (hk : k < blocks.size) (b : Block) (j : Nat) :
    blockAt (blocks.setIfInBounds k b) j = if k = j then b else blockAt blocks j := by
  rw [blockAt, Array.getElem?_setIfInBounds, if_pos hk]
  split <;> rfl

/-- Two elements are the same if they are in the same block at the same place. -/
theorem decide_eq_of_block (hk : i / 64 = j / 64) :
    decide (i % 64 = j % 64) = decide (i = j) := by
  have h : i % 64 = j % 64 ↔ i = j := by omega
  simp only [h]

theorem contains_insert (s : BitSet) (i j : Nat) :
    (s.insert i).2.contains j = (s.contains j || decide (i = j)) := by
  have hsize : i / 64 < (resize s.blocks (i / 64 + 1)).size := by
    rw [size_resize]
    omega
  simp only [contains_eq, insert, locate, blockAt_set hsize, blockAt_resize]
  split
  · next h =>
    rw [BitVec.getLsbD_or, Block.getLsbD_bit (Nat.mod_lt i (by decide)), decide_eq_of_block h, h]
  · next h =>
    have hne : i ≠ j := fun hij => h (hij ▸ rfl)
    simp [hne]

theorem flag_insert (s : BitSet) (i : Nat) : (s.insert i).1 = !s.contains i := by
  simp only [contains_eq, insert, locate, blockAt_resize]
  rw [← Block.and_bit _ (Nat.mod_lt i (by decide))]
  simp [bne]

theorem remove_eq (s : BitSet) (i : Nat) : s.remove i = if s.contains i then
      (true, ⟨s.blocks.setIfInBounds (i / 64) (blockAt s.blocks (i / 64) &&& ~~~(1#64 <<< (i % 64)))⟩)
    else (false, s) := by
  cases h : s.blocks[i / 64]? with
  | none => simp [remove, contains, locate, h]
  | some b => simp [remove, contains, locate, blockAt, h]

theorem contains_remove (s : BitSet) (i j : Nat) :
    (s.remove i).2.contains j = (s.contains j && !decide (i = j)) := by
  rw [remove_eq]
  split
  · next h =>
    have hsize : i / 64 < s.blocks.size := by
      refine Nat.lt_of_not_le fun hle => ?_
      rw [contains_eq, blockAt_of_size_le hle] at h
      simp at h
    simp only [contains_eq, blockAt_set hsize]
    split
    · next hk =>
      have hj : j % 64 < 64 := Nat.mod_lt j (by decide)
      rw [BitVec.getLsbD_and, BitVec.getLsbD_not, Block.getLsbD_bit (Nat.mod_lt i (by decide)),
        decide_eq_of_block hk, hk, decide_eq_true hj, Bool.true_and]
    · next hk =>
      have hne : i ≠ j := fun hij => hk (hij ▸ rfl)
      simp [hne]
  · next h =>
    by_cases hij : i = j
    · subst hij
      simp [h]
    · simp [hij]

theorem flag_remove (s : BitSet) (i : Nat) : (s.remove i).1 = s.contains i := by
  rw [remove_eq]
  split <;> simp_all

/-- The loop over two sets of blocks. It may stop where the first set ends if all that could follow is
empty. -/
theorem combine_spec {f : Block → Block → Block} (hf : ∀ b, f b 0#64 = b) (theirs : List Block)
    (k : Nat) (changed : Bool) (blocks : Array Block)
    (hend : ∀ j, blocks.size ≤ k + j → f 0#64 ((theirs[j]?).getD 0#64) = 0#64) :
    (∀ j, blockAt (combine f theirs k changed blocks).2 j =
        if k ≤ j then f (blockAt blocks j) ((theirs[j - k]?).getD 0#64) else blockAt blocks j) ∧
      ((combine f theirs k changed blocks).1 = true ↔ changed = true ∨
        ∃ j, f (blockAt blocks (k + j)) ((theirs[j]?).getD 0#64) ≠ blockAt blocks (k + j)) := by
  induction theirs generalizing k changed blocks with
  | nil => simp [combine, hf]
  | cons b theirs ih =>
    by_cases hk : k < blocks.size
    · have hold : blocks[k]? = some (blockAt blocks k) := by
        rw [blockAt, Array.getElem?_eq_getElem hk, Option.getD_some]
      obtain ⟨hblocks, hflag⟩ := ih (k + 1) (changed || f (blockAt blocks k) b != blockAt blocks k)
        (blocks.setIfInBounds k (f (blockAt blocks k) b)) fun j hj => by
          rw [Array.size_setIfInBounds] at hj
          exact hend (j + 1) (by omega)
      simp only [combine, hold]
      refine ⟨fun j => ?_, ?_⟩
      · rw [hblocks, blockAt_set hk]
        rcases Nat.lt_trichotomy j k with hlt | rfl | hlt
        · simp [show ¬ k + 1 ≤ j by omega, show ¬ k ≤ j by omega, show k ≠ j by omega]
        · simp
        · obtain ⟨d, rfl⟩ : ∃ d, j = k + 1 + d := ⟨j - (k + 1), by omega⟩
          simp [show k ≤ k + 1 + d by omega, show k ≠ k + 1 + d by omega,
            show k + 1 + d - k = d + 1 by omega]
      · have hlater : ∀ j, blockAt (blocks.setIfInBounds k (f (blockAt blocks k) b)) (k + 1 + j) =
            blockAt blocks (k + (j + 1)) := fun j => by
          rw [blockAt_set hk, if_neg (by omega), show k + 1 + j = k + (j + 1) by omega]
        rw [hflag]
        simp only [hlater, Bool.or_eq_true, bne_iff_ne, or_assoc]
        refine or_congr_right ⟨?_, ?_⟩
        · rintro (h | ⟨j, h⟩)
          · exact ⟨0, h⟩
          · exact ⟨j + 1, h⟩
        · rintro ⟨_ | j, h⟩
          · exact .inl h
          · exact .inr ⟨j, h⟩
    · have hle : blocks.size ≤ k := Nat.le_of_not_lt hk
      have hnone : blocks[k]? = none := Array.getElem?_eq_none hle
      simp only [combine, hnone]
      refine ⟨fun j => ?_, ?_⟩
      · split
        · next hj =>
          rw [blockAt_of_size_le (Nat.le_trans hle hj)]
          exact (hend (j - k) (by omega)).symm
        · rfl
      · refine (or_iff_left ?_).symm
        rintro ⟨j, hj⟩
        rw [blockAt_of_size_le (by omega)] at hj
        exact hj (hend j (by omega))

theorem getD_toList (blocks : Array Block) (k : Nat) :
    (blocks.toList[k]?).getD 0#64 = blockAt blocks k := by
  rw [Array.getElem?_toList, blockAt]

theorem union_spec (s t : BitSet) :
    (∀ k, blockAt (s.union t).2.blocks k = blockAt s.blocks k ||| blockAt t.blocks k) ∧
      ((s.union t).1 = true ↔
        ∃ k, blockAt s.blocks k ||| blockAt t.blocks k ≠ blockAt s.blocks k) := by
  have h := combine_spec (f := (· ||| ·)) (by simp) t.blocks.toList 0 false
    (resize s.blocks t.blocks.size) fun j hj => by
      rw [size_resize] at hj
      rw [getD_toList, blockAt_of_size_le (by omega)]
      rfl
  simp only [Nat.zero_le, if_true, Nat.sub_zero, Nat.zero_add, getD_toList, blockAt_resize,
    Bool.false_eq_true, false_or] at h
  exact h

theorem subtract_spec (s t : BitSet) :
    (∀ k, blockAt (s.subtract t).2.blocks k = blockAt s.blocks k &&& ~~~blockAt t.blocks k) ∧
      ((s.subtract t).1 = true ↔
        ∃ k, blockAt s.blocks k &&& ~~~blockAt t.blocks k ≠ blockAt s.blocks k) := by
  have h := combine_spec (f := (· &&& ~~~ ·)) (fun b => BitVec.and_allOnes) t.blocks.toList 0 false
    s.blocks (by simp)
  simp only [Nat.zero_le, if_true, Nat.sub_zero, Nat.zero_add, getD_toList, Bool.false_eq_true,
    false_or] at h
  exact h

theorem contains_union (s t : BitSet) (i : Nat) :
    (s.union t).2.contains i = (s.contains i || t.contains i) := by
  rw [contains_eq, (union_spec s t).1, BitVec.getLsbD_or, contains_eq, contains_eq]

theorem contains_subtract (s t : BitSet) (i : Nat) :
    (s.subtract t).2.contains i = (s.contains i && !t.contains i) := by
  have hi : i % 64 < 64 := Nat.mod_lt i (by decide)
  rw [contains_eq, (subtract_spec s t).1, BitVec.getLsbD_and, BitVec.getLsbD_not,
    decide_eq_true hi, Bool.true_and, contains_eq, contains_eq]

theorem flag_union :
    (s.union t).1 = true ↔ ∃ i, s.contains i = false ∧ t.contains i = true := by
  rw [(union_spec s t).2, ← not_forall, forall_block_eq_iff, not_forall]
  refine exists_congr fun i => ?_
  rw [BitVec.getLsbD_or, ← contains_eq, ← contains_eq]
  cases s.contains i <;> cases t.contains i <;> decide

theorem flag_subtract :
    (s.subtract t).1 = true ↔ ∃ i, s.contains i = true ∧ t.contains i = true := by
  rw [(subtract_spec s t).2, ← not_forall, forall_block_eq_iff, not_forall]
  refine exists_congr fun i => ?_
  have hi : i % 64 < 64 := Nat.mod_lt i (by decide)
  rw [BitVec.getLsbD_and, BitVec.getLsbD_not, decide_eq_true hi, Bool.true_and, ← contains_eq,
    ← contains_eq]
  cases s.contains i <;> cases t.contains i <;> decide

/-- A property that empty blocks have is one of all blocks if it is one of those that are there. -/
theorem forall_blockAt_iff {P : Nat → Block → Prop} (hP : ∀ k, P k 0#64) :
    (∀ k b, blocks[k]? = some b → P k b) ↔ ∀ k, P k (blockAt blocks k) := by
  refine forall_congr' fun k => ?_
  rw [blockAt]
  cases blocks[k]? with
  | none => simp [hP]
  | some b => simp

theorem isEmpty_iff : s.isEmpty = true ↔ ∀ i, s.contains i = false := by
  have hblocks : s.isEmpty = true ↔ ∀ k, blockAt s.blocks k = 0#64 := by
    rw [← forall_blockAt_iff (P := fun _ b => b = 0#64) fun _ => rfl]
    simp only [isEmpty, List.all_eq_true, Array.mem_toList_iff, Array.mem_iff_getElem?, beq_iff_eq]
    exact ⟨fun h k b hb => h b ⟨k, hb⟩, fun h b hb => hb.elim fun k hk => h k b hk⟩
  rw [hblocks, forall_block_eq_iff (G := fun _ => 0#64)]
  simp [contains_eq]

theorem includes_iff :
    s.includes t = true ↔ ∀ i, t.contains i = true → s.contains i = true := by
  have hblocks : s.includes t = true ↔
      ∀ k, blockAt s.blocks k &&& blockAt t.blocks k = blockAt t.blocks k := by
    rw [← forall_blockAt_iff (P := fun k b => blockAt s.blocks k &&& b = b) (by simp)]
    simp only [includes, List.all_eq_true, List.mem_zipIdx_iff_getElem?, Array.getElem?_toList,
      beq_iff_eq, Prod.forall]
    exact ⟨fun h k b hb => h b k hb, fun h b k hb => h k b hb⟩
  rw [hblocks, forall_block_eq_iff]
  refine forall_congr' fun i => ?_
  rw [BitVec.getLsbD_and, ← contains_eq, ← contains_eq]
  cases s.contains i <;> cases t.contains i <;> decide

@[simp]
theorem contains_empty (i : Nat) : (∅ : BitSet).contains i = false := by
  rw [contains_eq, blockAt_of_size_le (Nat.zero_le _)]
  simp

/-- The elements of blocks, the first of which has number `k`. -/
def elements : List Block → (k : Nat) → List Nat
  | [], _ => []
  | b :: rest, k => b.ones.map (k * 64 + ·) ++ elements rest (k + 1)

theorem mem_elements {rest : List Block} : i ∈ elements rest k ↔
    k ≤ i / 64 ∧ ((rest[i / 64 - k]?).getD 0#64).getLsbD (i % 64) = true := by
  induction rest generalizing k with
  | nil => simp [elements]
  | cons b rest ih =>
    have hfirst : i ∈ b.ones.map (k * 64 + ·) ↔ i / 64 = k ∧ b.getLsbD (i % 64) = true := by
      simp only [List.mem_map, Block.mem_ones]
      constructor
      · rintro ⟨j, hj, rfl⟩
        have hlt : j < 64 := BitVec.lt_of_getLsbD hj
        refine ⟨by omega, ?_⟩
        rwa [show (k * 64 + j) % 64 = j by omega]
      · rintro ⟨rfl, hi⟩
        exact ⟨i % 64, hi, by omega⟩
    rw [elements, List.mem_append, hfirst, ih]
    rcases Nat.lt_trichotomy (i / 64) k with hlt | heq | hlt
    · simp [show i / 64 ≠ k by omega, show ¬ k + 1 ≤ i / 64 by omega, show ¬ k ≤ i / 64 by omega]
    · simp [heq]
    · obtain ⟨d, hd⟩ : ∃ d, i / 64 - k = d + 1 := ⟨i / 64 - k - 1, by omega⟩
      simp [show i / 64 ≠ k by omega, show k + 1 ≤ i / 64 by omega, show k ≤ i / 64 by omega, hd,
        show i / 64 - (k + 1) = d by omega]

theorem pairwise_elements (rest : List Block) (k : Nat) : (elements rest k).Pairwise (· < ·) := by
  induction rest generalizing k with
  | nil => exact .nil
  | cons b rest ih =>
    refine List.pairwise_append.2 ⟨?_, ih (k + 1), fun i hi j hj => ?_⟩
    · refine (Block.pairwise_ones b).map _ fun _ _ h => ?_
      omega
    · obtain ⟨l, hl, rfl⟩ := List.mem_map.1 hi
      have hlt : l < 64 := BitVec.lt_of_getLsbD (Block.mem_ones.1 hl)
      have hle := (mem_elements.1 hj).1
      omega

theorem length_elements (rest : List Block) (k : Nat) :
    (elements rest k).length = (rest.map fun b => b.cpop.toNat).sum := by
  induction rest generalizing k with
  | nil => rfl
  | cons b rest ih => simp [elements, ih, Block.toNat_cpop]

namespace Cursor

/-- The elements that an iteration has still to list. -/
def left (c : Cursor) : List Nat := c.current.ones.map (c.base + ·) ++ elements c.rest c.passed

/-- Blocks are skipped only if there is nothing in them. -/
theorem seek_cases (rest : List Block) (passed : Nat) (current : Block) (base : Nat) :
    seek rest passed current base = none ∧ left ⟨rest, passed, current, base⟩ = [] ∨
      ∃ c, seek rest passed current base = some c ∧ c.current ≠ 0#64 ∧
        c.left = left ⟨rest, passed, current, base⟩ := by
  induction rest generalizing passed current base with
  | nil =>
    by_cases h : current = 0#64
    · exact .inl ⟨by simp [seek, h], by simp [left, h, elements]⟩
    · exact .inr ⟨_, by simp [seek, h], h, rfl⟩
  | cons b rest ih =>
    by_cases h : current = 0#64
    · have hleft : left ⟨b :: rest, passed, current, base⟩ =
          left ⟨rest, passed + 1, b, passed * 64⟩ := by simp [left, h, elements]
      rw [hleft]
      simpa [seek, h] using ih (passed + 1) b (passed * 64)
    · exact .inr ⟨_, by simp [seek, h], h, rfl⟩

theorem next?_cases (c : Cursor) : c.next? = none ∧ c.left = [] ∨
    ∃ i c', c.next? = some (i, c') ∧ c.left = i :: c'.left := by
  rcases seek_cases c.rest c.passed c.current c.base with ⟨hnone, hleft⟩ | ⟨c₁, hsome, hne, hleft⟩
  · exact .inl ⟨by simp [next?, hnone], hleft⟩
  · refine .inr ⟨_, _, by simp only [next?, hsome, Option.bind_eq_bind, Option.bind_some]; rfl, ?_⟩
    rw [← show c₁.left = c.left from hleft, left, Block.ones_eq_cons hne]
    rfl

/-- An iteration lists all that is left. -/
theorem collect_eq {fuel : Nat} {c : Cursor} (h : c.left.length ≤ fuel) :
    collect fuel c = c.left := by
  induction fuel generalizing c with
  | zero => exact (List.eq_nil_of_length_eq_zero (Nat.le_zero.1 h)).symm
  | succ fuel ih =>
    rcases next?_cases c with ⟨hnone, hleft⟩ | ⟨i, c', hsome, hleft⟩
    · simp [collect, hnone, hleft]
    · rw [hleft] at h ⊢
      simp [collect, hsome, ih (Nat.le_of_succ_le_succ h)]

end Cursor

theorem toList_eq (s : BitSet) : s.toList = elements s.blocks.toList 0 := by
  have hlength : ∀ rest k, (elements rest k).length ≤ 64 * rest.length := by
    intro rest k
    induction rest generalizing k with
    | nil => rfl
    | cons b rest ih =>
      have hones : b.ones.length ≤ 64 := (List.length_filter_le ..).trans (by simp)
      have hrest := ih (k + 1)
      simp only [elements, List.length_append, List.length_map, List.length_cons]
      omega
  have hleft : Cursor.left ⟨s.blocks.toList, 0, 0#64, 0⟩ = elements s.blocks.toList 0 := by
    simp [Cursor.left]
  rw [toList, Cursor.collect_eq, hleft]
  rw [hleft]
  simpa using hlength s.blocks.toList 0

/-- The list holds exactly the elements. -/
@[simp]
theorem mem_toList : i ∈ s.toList ↔ s.contains i = true := by
  rw [toList_eq, mem_elements, Nat.sub_zero, getD_toList, contains_eq]
  simp

theorem pairwise_toList (s : BitSet) : s.toList.Pairwise (· < ·) :=
  toList_eq s ▸ pairwise_elements s.blocks.toList 0

/-- The ones of all blocks are as many as the elements. -/
theorem length_toList (s : BitSet) : s.toList.length = s.size := by
  rw [toList_eq, length_elements, size, List.sum_eq_foldl, List.foldl_map]

end BitSet

end PointsTo
