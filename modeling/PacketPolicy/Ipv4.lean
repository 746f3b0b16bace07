import PacketPolicy.Text.Literal

/-!
# IPv4 addresses and networks

Addresses and the networks that hold them, with their written forms.
-/

namespace PacketPolicy

namespace Ipv4

/-!
## Addresses

An address is a 32-bit word, written as four octets. The written form is unique:
an octet is a numeral from 0 to 255 without leading zeros.
-/

structure Address where
  bits : BitVec 32
  deriving DecidableEq

namespace Address

instance : Inhabited Address := ⟨⟨0⟩⟩

def ofOctets (a b c d : Nat) : Address :=
  ⟨BitVec.ofNat 32 (((a * 256 + b) * 256 + c) * 256 + d)⟩

/-- The four octets, most significant first. -/
def octets (a : Address) : List Nat :=
  let n := a.bits.toNat
  [n / 256 / 256 / 256, n / 256 / 256 % 256, n / 256 % 256, n % 256]

def chars (a : Address) : List Char :=
  ['.'].intercalate (a.octets.map Decimal.ofNat)

def render (a : Address) : String := String.ofList a.chars

/-- A numeral from 0 to 255 without leading zeros. -/
def octet? (cs : List Char) : Option Nat :=
  (Decimal.nat? cs).filter fun n => n < 256 ∧ Decimal.ofNat n = cs

def ofChars? (cs : List Char) : Option Address :=
  match cs.splitOn '.' with
  | [a, b, c, d] => do
    return ofOctets (← octet? a) (← octet? b) (← octet? c) (← octet? d)
  | _ => none

def ofText? (s : String) : Option Address := ofChars? s.toList

end Address

/-!
## Networks

A network is an address with a length: it holds the addresses that agree with it
in that many leading bits. The bits after the length are kept as they were
given; `normalize` clears them.
-/

structure Network where
  address : Address
  length : Nat
  length_le : length ≤ 32 := by decide
  deriving DecidableEq

namespace Network

/-- The network of one address. -/
def host (a : Address) : Network := { address := a, length := 32 }

/-- The leading bits of an address that a network of this length looks at. -/
def lead (length : Nat) (a : Address) : BitVec 32 := a.bits >>> (32 - length)

/-- The lowest address of the network: all bits after the length are zero. -/
def base (n : Network) : Address := ⟨lead n.length n.address <<< (32 - n.length)⟩

/-- The same network without bits after the length. -/
def normalize (n : Network) : Network := { n with address := n.base }

def IsNormal (n : Network) : Prop := n.base = n.address

instance (n : Network) : Decidable n.IsNormal := inferInstanceAs (Decidable (_ = _))

/-- An address lies in a network if it agrees with it in the leading bits. -/
def contains (n : Network) (a : Address) : Bool := lead n.length a == lead n.length n.address

/-- Every address of `inner` lies in `outer`. -/
def covers (outer inner : Network) : Bool :=
  outer.length ≤ inner.length && outer.contains inner.base

/-! ### Written form -/

/-- The address as it is stored, and the length. -/
def chars (n : Network) : List Char := n.address.chars ++ '/' :: Decimal.ofNat n.length

def render (n : Network) : String := String.ofList n.chars

/-- The network mask of a length: that many ones, then zeros. -/
def mask (length : Nat) : BitVec 32 := BitVec.allOnes 32 <<< (32 - length)

/-- The length whose mask is this address. -/
def lengthOfMask? (a : Address) : Option Nat :=
  (List.range 33).find? fun length => mask length == a.bits

/-- A length is a numeral up to 32, which may have leading zeros and one plus sign. -/
def lengthOfNumeral? : List Char → Option Nat
  | '+' :: cs => (Decimal.nat? cs).filter (· ≤ 32)
  | cs => (Decimal.nat? cs).filter (· ≤ 32)

def ofParts? (a : Address) (length : Nat) : Option Network :=
  if h : length ≤ 32 then some { address := a, length, length_le := h } else none

/-- An address, alone or with one slash and then a length or the mask of a length. -/
def ofChars? (cs : List Char) : Option Network :=
  match cs.splitOn '/' with
  | [a] => (Address.ofChars? a).map host
  | [a, l] => do
    let address ← Address.ofChars? a
    match Address.ofChars? l with
    | some m => ofParts? address (← lengthOfMask? m)
    | none => ofParts? address (← lengthOfNumeral? l)
  | _ => none

def ofText? (s : String) : Option Network := ofChars? s.toList

@[simp] theorem length_normalize (n : Network) : n.normalize.length = n.length := rfl

theorem lead_base (n : Network) : lead n.length n.base = lead n.length n.address := by
  have := n.length_le
  apply BitVec.eq_of_getLsbD_eq
  intro i hi
  simp only [lead, base, BitVec.getLsbD_ushiftRight, BitVec.getLsbD_shiftLeft]
  grind

@[simp] theorem base_normalize (n : Network) : n.normalize.base = n.base :=
  congrArg (fun b : BitVec 32 => Address.mk (b <<< (32 - n.length))) n.lead_base

theorem IsNormal.normalize_eq {n : Network} (h : n.IsNormal) : n.normalize = n :=
  congrArg (fun a => { n with address := a }) h

theorem isNormal_normalize (n : Network) : n.normalize.IsNormal := n.base_normalize

end Network
end Ipv4

end PacketPolicy
