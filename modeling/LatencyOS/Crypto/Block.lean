import Mathlib.Algebra.Ring.Int.Defs
import Mathlib.Algebra.Ring.Nat

/-!
# Blocks of sixteen bytes

A block `[u8; 16]` as four words of four bytes: byte `4 * c + r` is byte `r` of word `c`.
-/

namespace LatencyOS.Crypto

abbrev Byte := BitVec 8

/-- Four things. -/
@[ext] structure Quad (α : Type) where
  x0 : α
  x1 : α
  x2 : α
  x3 : α
  deriving DecidableEq

namespace Quad

variable {α β γ : Type}

def map (f : α → β) (q : Quad α) : Quad β := ⟨f q.x0, f q.x1, f q.x2, f q.x3⟩

def zipWith (f : α → β → γ) (p : Quad α) (q : Quad β) : Quad γ :=
  ⟨f p.x0 q.x0, f p.x1 q.x1, f p.x2 q.x2, f p.x3 q.x3⟩

def toList (q : Quad α) : List α := [q.x0, q.x1, q.x2, q.x3]

/-- Two functions agree on four things when they agree on each. -/
theorem map_eq_map_iff {f g : α → β} {q : Quad α} :
    q.map f = q.map g ↔ ∀ x ∈ q.toList, f x = g x := by
  simp only [map, mk.injEq, toList, List.mem_cons, List.not_mem_nil, or_false, forall_eq_or_imp,
    forall_eq]

end Quad

abbrev Word := Quad Byte

abbrev Block := Quad Word

def Word.xor : Word → Word → Word := Quad.zipWith (· ^^^ ·)

def Block.xor : Block → Block → Block := Quad.zipWith Word.xor

theorem Word.xor_right_inj {a b k : Word} : Word.xor a k = Word.xor b k ↔ a = b := by
  simp only [Word.xor, Quad.zipWith, Quad.ext_iff, BitVec.xor_left_inj]

theorem Block.xor_right_inj {a b k : Block} : Block.xor a k = Block.xor b k ↔ a = b := by
  simp only [Block.xor, Quad.zipWith, Quad.mk.injEq, Word.xor_right_inj]
  exact Quad.ext_iff.symm

/-- The bytes of a block in order. -/
def Block.toBytes (b : Block) : List Byte := b.toList.flatMap Quad.toList

def Word.zero : Word := ⟨0, 0, 0, 0⟩

def Block.zero : Block := ⟨.zero, .zero, .zero, .zero⟩

/-- The bytes of a 32-bit number, the highest first. -/
def Word.ofBits (w : BitVec 32) : Word :=
  ⟨(w >>> 24).setWidth 8, (w >>> 16).setWidth 8, (w >>> 8).setWidth 8, w.setWidth 8⟩

/-- The number four bytes stand for, the highest first. -/
def Word.bits (w : Word) : BitVec 32 := w.x0 ++ w.x1 ++ w.x2 ++ w.x3

/-- The block of two 64-bit numbers, the highest byte first. -/
def Block.ofHalves (hi lo : BitVec 64) : Block :=
  ⟨.ofBits (hi.extractLsb' 32 32), .ofBits (hi.extractLsb' 0 32), .ofBits (lo.extractLsb' 32 32),
    .ofBits (lo.extractLsb' 0 32)⟩

/-- The first sixteen bytes of a list, with zeros after its end. -/
def Block.ofBytes (l : List Byte) : Block :=
  ⟨⟨l.getD 0 0, l.getD 1 0, l.getD 2 0, l.getD 3 0⟩,
    ⟨l.getD 4 0, l.getD 5 0, l.getD 6 0, l.getD 7 0⟩,
    ⟨l.getD 8 0, l.getD 9 0, l.getD 10 0, l.getD 11 0⟩,
    ⟨l.getD 12 0, l.getD 13 0, l.getD 14 0, l.getD 15 0⟩⟩

end LatencyOS.Crypto
