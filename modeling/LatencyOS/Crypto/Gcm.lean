import LatencyOS.Crypto.Block

/-!
# AES-128-GCM as the kernel computes it

`ghash_multiply` and `aes_128_gcm_encrypt` of `crypto.rs`.  A loop over a slice in steps of
sixteen bytes is a recursion on what is left of it.
-/

namespace LatencyOS.Crypto

/-!
## AES-128 as the kernel computes it

The key schedule and the cipher of `crypto.rs`, with its tables.
-/

def rcon : List (BitVec 32) :=
  [0x01000000, 0x02000000, 0x04000000, 0x08000000, 0x10000000,
    0x20000000, 0x40000000, 0x80000000, 0x1B000000, 0x36000000]

def sbox : List Byte :=
  [0x63, 0x7c, 0x77, 0x7b, 0xf2, 0x6b, 0x6f, 0xc5, 0x30, 0x01, 0x67, 0x2b, 0xfe, 0xd7, 0xab, 0x76,
    0xca, 0x82, 0xc9, 0x7d, 0xfa, 0x59, 0x47, 0xf0, 0xad, 0xd4, 0xa2, 0xaf, 0x9c, 0xa4, 0x72, 0xc0,
    0xb7, 0xfd, 0x93, 0x26, 0x36, 0x3f, 0xf7, 0xcc, 0x34, 0xa5, 0xe5, 0xf1, 0x71, 0xd8, 0x31, 0x15,
    0x04, 0xc7, 0x23, 0xc3, 0x18, 0x96, 0x05, 0x9a, 0x07, 0x12, 0x80, 0xe2, 0xeb, 0x27, 0xb2, 0x75,
    0x09, 0x83, 0x2c, 0x1a, 0x1b, 0x6e, 0x5a, 0xa0, 0x52, 0x3b, 0xd6, 0xb3, 0x29, 0xe3, 0x2f, 0x84,
    0x53, 0xd1, 0x00, 0xed, 0x20, 0xfc, 0xb1, 0x5b, 0x6a, 0xcb, 0xbe, 0x39, 0x4a, 0x4c, 0x58, 0xcf,
    0xd0, 0xef, 0xaa, 0xfb, 0x43, 0x4d, 0x33, 0x85, 0x45, 0xf9, 0x02, 0x7f, 0x50, 0x3c, 0x9f, 0xa8,
    0x51, 0xa3, 0x40, 0x8f, 0x92, 0x9d, 0x38, 0xf5, 0xbc, 0xb6, 0xda, 0x21, 0x10, 0xff, 0xf3, 0xd2,
    0xcd, 0x0c, 0x13, 0xec, 0x5f, 0x97, 0x44, 0x17, 0xc4, 0xa7, 0x7e, 0x3d, 0x64, 0x5d, 0x19, 0x73,
    0x60, 0x81, 0x4f, 0xdc, 0x22, 0x2a, 0x90, 0x88, 0x46, 0xee, 0xb8, 0x14, 0xde, 0x5e, 0x0b, 0xdb,
    0xe0, 0x32, 0x3a, 0x0a, 0x49, 0x06, 0x24, 0x5e, 0xc2, 0xd3, 0xac, 0x62, 0x91, 0x95, 0xe4, 0x79,
    0xe7, 0xc8, 0x37, 0x6d, 0x8d, 0xd5, 0x4e, 0xa9, 0x6c, 0x56, 0xf4, 0xea, 0x65, 0x7a, 0xae, 0x08,
    0xba, 0x78, 0x25, 0x2e, 0x1c, 0xa6, 0xb4, 0xc6, 0xe8, 0xdd, 0x74, 0x1f, 0x4b, 0xbd, 0x8b, 0x8a,
    0x70, 0x3e, 0xb5, 0x66, 0x48, 0x03, 0xf6, 0x0e, 0x61, 0x35, 0x57, 0xb9, 0x86, 0xc1, 0x1d, 0x9e,
    0xe1, 0xf8, 0x98, 0x11, 0x69, 0xd9, 0x8e, 0x94, 0x9b, 0x1e, 0x87, 0xe9, 0xce, 0x55, 0x28, 0xdf,
    0x8c, 0xa1, 0x89, 0x0d, 0xbf, 0xe6, 0x42, 0x68, 0x41, 0x99, 0x2d, 0x0f, 0xb0, 0x54, 0xbb, 0x16]

/-- An entry of the table. -/
def sboxAt (i : ℕ) : Byte := sbox.getD i 0

def subWord (w : BitVec 32) : BitVec 32 :=
  let b0 := (sboxAt ((w >>> 24) &&& 0xFF).toNat).setWidth 32
  let b1 := (sboxAt ((w >>> 16) &&& 0xFF).toNat).setWidth 32
  let b2 := (sboxAt ((w >>> 8) &&& 0xFF).toNat).setWidth 32
  let b3 := (sboxAt (w &&& 0xFF).toNat).setWidth 32
  (b0 <<< 24) ||| (b1 <<< 16) ||| (b2 <<< 8) ||| b3

def rotWord (w : BitVec 32) : BitVec 32 := w.rotateLeft 8

/-- Four bytes of the key as a number. -/
def keyWord (k : Word) : BitVec 32 :=
  (k.x0.setWidth 32 <<< 24) ||| (k.x1.setWidth 32 <<< 16) ||| (k.x2.setWidth 32 <<< 8) |||
    k.x3.setWidth 32

/-- `w[i]`, from the words before it. -/
def nextWord (w : List (BitVec 32)) (i : ℕ) : BitVec 32 :=
  let temp := w.getD (i - 1) 0
  let temp := if i % 4 = 0 then subWord (rotWord temp) ^^^ rcon.getD (i / 4 - 1) 0 else temp
  w.getD (i - 4) 0 ^^^ temp

/-- The words of the schedule after `n` turns of the loop. -/
def expand (key : Block) : ℕ → List (BitVec 32)
  | 0 => key.toList.map keyWord
  | n + 1 => expand key n ++ [nextWord (expand key n) (n + 4)]

/-- `AddRoundKey` on one column. -/
def addKeyWord (w : Word) (rk : BitVec 32) : Word :=
  ⟨w.x0 ^^^ (rk >>> 24).setWidth 8, w.x1 ^^^ (rk >>> 16).setWidth 8,
    w.x2 ^^^ (rk >>> 8).setWidth 8, w.x3 ^^^ rk.setWidth 8⟩

def addRoundKey (roundKeys : List (BitVec 32)) (round : ℕ) (s : Block) : Block :=
  ⟨addKeyWord s.x0 (roundKeys.getD (4 * round) 0),
    addKeyWord s.x1 (roundKeys.getD (4 * round + 1) 0),
    addKeyWord s.x2 (roundKeys.getD (4 * round + 2) 0),
    addKeyWord s.x3 (roundKeys.getD (4 * round + 3) 0)⟩

def subBytes (s : Block) : Block := s.map (Quad.map fun b => sboxAt b.toNat)

/-- The assignments of `ShiftRows`, row by row. -/
def shiftRows (s : Block) : Block :=
  ⟨⟨s.x0.x0, s.x1.x1, s.x2.x2, s.x3.x3⟩, ⟨s.x1.x0, s.x2.x1, s.x3.x2, s.x0.x3⟩,
    ⟨s.x2.x0, s.x3.x1, s.x0.x2, s.x1.x3⟩, ⟨s.x3.x0, s.x0.x1, s.x1.x2, s.x2.x3⟩⟩

/-- `g2` of a byte. -/
def double (a : Byte) : Byte := (a <<< 1) ^^^ (if a &&& 0x80 ≠ 0 then 0x1B else 0)

def mixColumn (a : Word) : Word :=
  let g0 := double a.x0
  let g1 := double a.x1
  let g2 := double a.x2
  let g3 := double a.x3
  ⟨g0 ^^^ g1 ^^^ a.x1 ^^^ a.x2 ^^^ a.x3, a.x0 ^^^ g1 ^^^ g2 ^^^ a.x2 ^^^ a.x3,
    a.x0 ^^^ a.x1 ^^^ g2 ^^^ g3 ^^^ a.x3, g0 ^^^ a.x0 ^^^ a.x1 ^^^ a.x2 ^^^ g3⟩

/-- The state after the first `AddRoundKey` and `n` main rounds. -/
def mainRounds (roundKeys : List (BitVec 32)) (block : Block) : ℕ → Block
  | 0 => addRoundKey roundKeys 0 block
  | n + 1 =>
    addRoundKey roundKeys (n + 1)
      ((shiftRows (subBytes (mainRounds roundKeys block n))).map mixColumn)

/-- An expanded key and its hash key. -/
structure Aes128Key where
  roundKeys : List (BitVec 32)
  h : Block

/-- `encrypt_block` -/
def encryptBlock (roundKeys : List (BitVec 32)) (block : Block) : Block :=
  addRoundKey roundKeys 10 (shiftRows (subBytes (mainRounds roundKeys block 9)))

/-- `Aes128Key::new` -/
def Aes128Key.new (key : Block) : Aes128Key :=
  ⟨expand key 40, encryptBlock (expand key 40) .zero⟩

def Aes128Key.encrypt (key : Aes128Key) : Block → Block := encryptBlock key.roundKeys

/-- The variables of `ghash_multiply`. -/
structure GhashState where
  z0 : BitVec 64
  z1 : BitVec 64
  v0 : BitVec 64
  v1 : BitVec 64

/-- One turn of its inner loop, for a bit of `x`. -/
def GhashState.step (s : GhashState) (bit : Bool) : GhashState :=
  let lsb := s.v1 &&& 1
  { z0 := if bit then s.z0 ^^^ s.v0 else s.z0
    z1 := if bit then s.z1 ^^^ s.v1 else s.z1
    v0 := if lsb ≠ 0 then (s.v0 >>> 1) ^^^ 0xE100000000000000 else s.v0 >>> 1
    v1 := (s.v1 >>> 1) ||| ((s.v0 &&& 1) <<< 63) }

/-- The bits of a byte, from `bit_idx = 7` down to 0. -/
def bitsOf (b : Byte) : List Bool := [7, 6, 5, 4, 3, 2, 1, 0].map fun i => (b >>> i) &&& 1 != 0

/-- `ghash_multiply` -/
def ghashMultiply (x y : Block) : Block :=
  let s := x.toBytes.foldl (fun s b => (bitsOf b).foldl GhashState.step s)
    ⟨0, 0, y.x0.bits ++ y.x1.bits, y.x2.bits ++ y.x3.bits⟩
  .ofHalves s.z0 s.z1

/-- Twelve bytes. -/
structure Iv where
  x0 : Word
  x1 : Word
  x2 : Word

def Iv.toBytes (iv : Iv) : List Byte := iv.x0.toList ++ iv.x1.toList ++ iv.x2.toList

/-- The counter block of a vector. -/
def Iv.counter (iv : Iv) (ctrVal : BitVec 32) : Block := ⟨iv.x0, iv.x1, iv.x2, .ofBits ctrVal⟩

/-- The encryption of the payload, after the counter value `ctrVal`. -/
def ctrLoop (key : Aes128Key) (iv : Iv) (ctrVal : BitVec 32) (payload : List Byte) : List Byte :=
  if payload = [] then []
  else
    let ks := key.encrypt (iv.counter (ctrVal + 1))
    List.zipWith (· ^^^ ·) (payload.take 16) ks.toBytes ++
      ctrLoop key iv (ctrVal + 1) (payload.drop 16)
termination_by payload.length
decreasing_by
  rename_i hne
  have := List.length_pos_iff.mpr hne
  rw [List.length_drop]
  omega

/-- The bytes go into the hash, sixteen at a time, the last ones with zeros. -/
def absorb (h : Block) (ghashState : Block) (bytes : List Byte) : Block :=
  if bytes = [] then ghashState
  else absorb h (ghashMultiply (Block.xor ghashState (.ofBytes (bytes.take 16))) h) (bytes.drop 16)
termination_by bytes.length
decreasing_by
  rename_i hne
  have := List.length_pos_iff.mpr hne
  rw [List.length_drop]
  omega

/-- `aes_128_gcm_encrypt`: the payload and the tag. -/
def aes128GcmEncrypt (key : Aes128Key) (iv : Iv) (aad payload : List Byte) : List Byte × Block :=
  let ek0 := key.encrypt (iv.counter 1)
  let payload := ctrLoop key iv 1 payload
  let ghashState := absorb key.h .zero aad
  let ghashState := absorb key.h ghashState payload
  let aadBits := BitVec.ofNat 64 aad.length * 8
  let ctBits := BitVec.ofNat 64 payload.length * 8
  let s := ghashMultiply (Block.xor ghashState (.ofHalves aadBits ctBits)) key.h
  (payload, Block.xor s ek0)

end LatencyOS.Crypto
