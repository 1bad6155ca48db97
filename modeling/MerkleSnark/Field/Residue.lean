/-!
# Residues modulo a fixed number

Arithmetic of the integers modulo `m` on least non-negative representatives.  Both fields of the
pairing, the scalars and the coordinates, are instances of it; nothing here needs `m` to be prime.

## Main definitions

* `Residue m`, `Modulus m` — a number below `m`, which is positive.
* `Residue.ofNat`, `Residue.ofInt` — the residue class of a number.
* `binaryPower` — exponentiation by repeated squaring.
* `Residue.inv` — the power `m - 2`, which for prime `m` is the inverse and sends zero to zero.
-/

namespace MerkleSnark

/-- Exponentiation by repeated squaring: the bits of the exponent are consumed from the lowest
up while the base is squared. -/
@[specialize] def binaryPower {M : Type} [One M] [Mul M] (x : M) (n : Nat) : M :=
  if n = 0 then 1
  else if n % 2 = 0 then binaryPower (x * x) (n / 2)
  else binaryPower (x * x) (n / 2) * x
termination_by n
decreasing_by all_goals omega

/-- A number that can be a modulus is positive. -/
class Modulus (m : Nat) : Prop where
  /-- It is positive. -/
  pos : 0 < m

/-- The integers modulo `m`, each class stored as its least non-negative representative. -/
@[ext] structure Residue (m : Nat) where
  /-- The representative. -/
  val : Nat
  /-- The representative is reduced. -/
  val_lt : val < m
  deriving DecidableEq, Repr

namespace Residue

variable {m : Nat}

/-- A modulus that has a residue is positive. -/
theorem modulus_pos (a : Residue m) : 0 < m := Nat.lt_of_le_of_lt (Nat.zero_le _) a.val_lt

/-- The class of a natural number. -/
@[inline] def ofNat (m : Nat) [Modulus m] (n : Nat) : Residue m :=
  ⟨n % m, Nat.mod_lt _ (Modulus.pos)⟩

/-- The class of an integer; `-1` is the class of `m - 1`. -/
def ofInt (m : Nat) [Modulus m] (n : Int) : Residue m :=
  ofNat m (n % (m : Int)).toNat

instance [Modulus m] : NatCast (Residue m) := ⟨ofNat m⟩
instance [Modulus m] : IntCast (Residue m) := ⟨ofInt m⟩
instance [Modulus m] : Zero (Residue m) := ⟨ofNat m 0⟩
instance [Modulus m] : One (Residue m) := ⟨ofNat m 1⟩
instance [Modulus m] : Inhabited (Residue m) := ⟨0⟩

@[inline] instance : Add (Residue m) :=
  ⟨fun a b => ⟨(a.val + b.val) % m, Nat.mod_lt _ a.modulus_pos⟩⟩

@[inline] instance : Sub (Residue m) :=
  ⟨fun a b => ⟨(a.val + (m - b.val)) % m, Nat.mod_lt _ a.modulus_pos⟩⟩

@[inline] instance : Neg (Residue m) :=
  ⟨fun a => ⟨(m - a.val) % m, Nat.mod_lt _ a.modulus_pos⟩⟩

@[inline] instance : Mul (Residue m) :=
  ⟨fun a b => ⟨a.val * b.val % m, Nat.mod_lt _ a.modulus_pos⟩⟩

instance [Modulus m] : HPow (Residue m) Nat (Residue m) := ⟨binaryPower⟩

/-- The inverse modulo a prime, with `0⁻¹ = 0`. -/
def inv [Modulus m] (a : Residue m) : Residue m := a ^ (m - 2)

instance [Modulus m] : Inv (Residue m) := ⟨inv⟩
instance [Modulus m] : Div (Residue m) := ⟨fun a b => a * b⁻¹⟩

@[simp] theorem val_ofNat [Modulus m] (n : Nat) : (ofNat m n).val = n % m := rfl
@[simp] theorem val_add (a b : Residue m) : (a + b).val = (a.val + b.val) % m := rfl
@[simp] theorem val_sub (a b : Residue m) : (a - b).val = (a.val + (m - b.val)) % m := rfl
@[simp] theorem val_neg (a : Residue m) : (-a).val = (m - a.val) % m := rfl
@[simp] theorem val_mul (a b : Residue m) : (a * b).val = a.val * b.val % m := rfl

end Residue

end MerkleSnark
