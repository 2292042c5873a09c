/-!
# Types

The types of values, their widths, and when one can be read as another without losing a bit.
-/

namespace Sdg

/-- The type of a value. -/
inductive Ty where
  /-- The type of instructions that yield nothing. -/
  | void
  | int (bits : UInt32)
  | float (bits : UInt32)
  /-- A pointer into an address space. -/
  | ptr (space : UInt32)
  /-- A vector of a fixed number of elements. -/
  | vec (element : Ty) (length : UInt32)
  /-- A named structure or array. -/
  | aggregate (name : String)
  /-- The type of block labels. -/
  | label
  deriving DecidableEq, Repr, Inhabited

namespace Ty

/-- How a type is shown. -/
def toText : Ty → String
  | void => "void"
  | int bits => "i" ++ toString bits.toNat
  | float bits => "f" ++ toString bits.toNat
  | ptr space => if space = 0 then "ptr" else "ptr addrspace(" ++ toString space.toNat ++ ")"
  | vec element length => "<" ++ toString length.toNat ++ " x " ++ element.toText ++ ">"
  | aggregate name => "%" ++ name
  | label => "label"

/-- Whether a register can hold a value of this type. -/
def isFirstClass : Ty → Bool
  | void | aggregate _ | label => false
  | _ => true

/-- The width in bits of a scalar or of a vector that bottoms out in one. -/
def bits? : Ty → Option Nat
  | int bits => some bits.toNat
  | float bits => some bits.toNat
  | vec element length => element.bits?.map (· * length.toNat)
  | _ => none

/-- Whether reading a value of type `a` as one of type `b` keeps every bit: both are the same type,
vectors of one known width, or pointers into one address space. -/
def isConvertible (a b : Ty) : Bool :=
  a = b || a.isFirstClass && b.isFirstClass &&
    match a, b with
    | vec .., vec .. => a.bits?.isSome && a.bits? = b.bits?
    | ptr s, ptr t => s = t
    | _, _ => false

end Ty

end Sdg
