/-! Dense sets of natural numbers. -/
namespace PointsTo

/-- The presence of 64 neighbouring numbers. -/
abbrev Block := BitVec 64

/-- The position of the lowest one of a block, which `b &&& -b` has alone. -/
def Block.lowest (b : Block) : Nat := (b &&& -b).toNat.log2

structure BitSet where
  blocks : Array Block
deriving DecidableEq

namespace BitSet

instance : EmptyCollection BitSet := ⟨⟨#[]⟩⟩

/-- The number of the block that an element belongs to, and its bit in the block. -/
def locate (i : Nat) : Nat × Block := (i / 64, 1#64 <<< (i % 64))

def contains (s : BitSet) (i : Nat) : Bool :=
  let (k, bit) := locate i
  (s.blocks[k]?).any fun b => b &&& bit != 0#64

/-- A block by its number; those after the last are empty. -/
def blockAt (blocks : Array Block) (k : Nat) : Block := (blocks[k]?).getD 0#64

def isEmpty (s : BitSet) : Bool := s.blocks.toList.all (· == 0#64)

/-- The number of elements. -/
def size (s : BitSet) : Nat := s.blocks.toList.foldl (fun n b => n + b.cpop.toNat) 0

/-- At least `n` blocks, where the new ones are empty. -/
def resize (blocks : Array Block) (n : Nat) : Array Block :=
  blocks ++ Array.replicate (n - blocks.size) 0#64

/-- Adds an element, making room for it; the flag tells whether it is new. -/
def insert (s : BitSet) (i : Nat) : Bool × BitSet :=
  let (k, bit) := locate i
  let blocks := resize s.blocks (k + 1)
  let old := blockAt blocks k
  (old &&& bit == 0#64, ⟨blocks.setIfInBounds k (old ||| bit)⟩)

/-- Takes an element out; the flag tells whether it was there. The room stays. -/
def remove (s : BitSet) (i : Nat) : Bool × BitSet :=
  let (k, bit) := locate i
  match s.blocks[k]? with
  | some old =>
    if old &&& bit != 0#64 then (true, ⟨s.blocks.setIfInBounds k (old &&& ~~~bit)⟩) else (false, s)
  | none => (false, s)

/-- Replaces block after block, from number `k` on, until the blocks of one set end; the flag is
raised if one of them changes. -/
def combine (f : Block → Block → Block) :
    (theirs : List Block) → (k : Nat) → (changed : Bool) → Array Block → Bool × Array Block
  | [], _, changed, blocks => (changed, blocks)
  | b :: theirs, k, changed, blocks =>
    match blocks[k]? with
    | none => (changed, blocks)
    | some old =>
      let new := f old b
      combine f theirs (k + 1) (changed || new != old) (blocks.setIfInBounds k new)

/-- Adds the elements of another set; the flag tells whether one of them is new. -/
def union (s t : BitSet) : Bool × BitSet :=
  let (changed, blocks) :=
    combine (· ||| ·) t.blocks.toList 0 false (resize s.blocks t.blocks.size)
  (changed, ⟨blocks⟩)

/-- Takes the elements of another set out; the flag tells whether one of them was there. -/
def subtract (s t : BitSet) : Bool × BitSet :=
  let (changed, blocks) := combine (· &&& ~~~ ·) t.blocks.toList 0 false s.blocks
  (changed, ⟨blocks⟩)

def includes (s t : BitSet) : Bool :=
  t.blocks.toList.zipIdx.all fun (theirs, k) => blockAt s.blocks k &&& theirs == theirs

/-- Where an iteration stands. -/
structure Cursor where
  /-- The blocks to come. -/
  rest : List Block
  /-- The number of blocks before these. -/
  passed : Nat := 0
  /-- The ones of the current block that were not listed yet. -/
  current : Block := 0#64
  /-- The least number that the current block has room for. -/
  base : Nat := 0

namespace Cursor

/-- Goes on to the first block, from the current one on, that has something to list. -/
def seek : (rest : List Block) → (passed : Nat) → (current : Block) → (base : Nat) → Option Cursor
  | [], passed, current, base => if current = 0#64 then none else some ⟨[], passed, current, base⟩
  | b :: rest, passed, current, base =>
    if current = 0#64 then seek rest (passed + 1) b (passed * 64)
    else some ⟨b :: rest, passed, current, base⟩

/-- The next element, which is taken out of the current block. -/
def next? (c : Cursor) : Option (Nat × Cursor) := do
  let c ← seek c.rest c.passed c.current c.base
  return (c.base + c.current.lowest, { c with current := c.current &&& (c.current - 1#64) })

/-- The next elements, of which there are at most `fuel`. -/
def collect : (fuel : Nat) → Cursor → List Nat
  | 0, _ => []
  | fuel + 1, c =>
    match c.next? with
    | none => []
    | some (i, c) => i :: collect fuel c

end Cursor

/-- The elements in the order of an iteration. -/
def toList (s : BitSet) : List Nat := Cursor.collect (64 * s.blocks.size) ⟨s.blocks.toList, 0, 0#64, 0⟩

end BitSet

end PointsTo
