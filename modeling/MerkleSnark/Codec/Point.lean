import MerkleSnark.Codec.Encoder
import MerkleSnark.Curve.Bn128

/-!
# Encoded points

A point is written as a flag and its affine coordinates.  At infinity the flag is zero, all
coordinate bytes are written as zero, and a reader accepts any bytes in their place.  A finite point
that is read lies on its curve; its coordinates are taken modulo the characteristic.

## Main definitions

* `PointCodec` — points with an encoding.
* `Decoder.point`, `Decoder.subgroupPoint` — reads a point, and checks its order.
-/

namespace MerkleSnark

/-- Points with an encoding. -/
class PointCodec (P : Type) where
  /-- The bytes of a point. -/
  encode : P → Bytes
  /-- Reads the bytes of a point. -/
  decode : Decoder P

/-- The flag of the point at infinity. -/
def infinityFlag : UInt8 := 0

/-- The flag of a finite point. -/
def finiteFlag : UInt8 := 1

/-- A coordinate, in thirty-two bytes. -/
def Encode.coordinate (x : Fq) : Bytes := Bytes.ofNat 32 x.val

namespace Decoder

/-- A coordinate, reduced modulo the characteristic. -/
def coordinate : Decoder Fq := return Residue.ofNat baseOrder (← uint 32)

/-- The flag of a point: whether it is finite.  It is judged once the coordinates are read. -/
def finite (flag : UInt8) : Decoder Bool :=
  if flag = infinityFlag then return false
  else if flag = finiteFlag then return true
  else throw (.badPointFlag flag.toNat)

/-- The flag byte. -/
def flag : Decoder UInt8 := return (← bytes 1).getD 0 0

end Decoder

namespace G1

/-- The flag and two coordinates. -/
def encode (p : G1) : Bytes :=
  if p.isInfinity then infinityFlag :: List.replicate 64 0
  else
    let (x, y) := p.affine
    finiteFlag :: (Encode.coordinate x ++ Encode.coordinate y)

/-- Reads the flag and two coordinates. -/
def decode : Decoder G1 := do
  let flag ← Decoder.flag
  let x ← Decoder.coordinate
  let y ← Decoder.coordinate
  if ← Decoder.finite flag then
    let p : G1 := .ofAffine x y
    if p.OnCurve coefficient then return p else throw .offCurve
  else return .infinity

end G1

namespace G2

/-- The flag and four coordinates. -/
def encode (p : G2) : Bytes :=
  if p.isInfinity then infinityFlag :: List.replicate 128 0
  else
    let (x, y) := p.affine
    finiteFlag :: (Encode.coordinate x.re ++ Encode.coordinate x.im
      ++ Encode.coordinate y.re ++ Encode.coordinate y.im)

/-- Reads the flag and four coordinates. -/
def decode : Decoder G2 := do
  let flag ← Decoder.flag
  let xRe ← Decoder.coordinate
  let xIm ← Decoder.coordinate
  let yRe ← Decoder.coordinate
  let yIm ← Decoder.coordinate
  if ← Decoder.finite flag then
    let p : G2 := .ofAffine ⟨xRe, xIm⟩ ⟨yRe, yIm⟩
    if p.OnCurve coefficient then return p else throw .offTwist
  else return .infinity

end G2

instance : PointCodec G1 := ⟨G1.encode, G1.decode⟩
instance : PointCodec G2 := ⟨G2.encode, G2.decode⟩

namespace Decoder

variable {P : Type} [PointCodec P]

/-- Reads a point. -/
def point : Decoder P := PointCodec.decode

/-- Reads a point and checks that its order divides the order of the group. -/
def subgroupPoint [PointGroup P] : Decoder P := do
  let p ← point (P := P)
  unless PointGroup.inSubgroup p do throw .notInSubgroup
  return p

end Decoder

end MerkleSnark
