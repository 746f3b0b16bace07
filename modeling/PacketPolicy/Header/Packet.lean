import PacketPolicy.Collection.SortedMap
import PacketPolicy.Collection.SortedSet
import PacketPolicy.Ipv4

/-!
# Packets

A packet is a record of named headers. Packets are linearly ordered by their
entries, which makes sets of packets extensional.
-/

namespace PacketPolicy

/-!
## Header values

A header holds a 64-bit integer, a text or an IPv4 address. Values are linearly
ordered, so that packets can be kept in sorted sets.
-/

inductive Value where
  | int (n : Int64)
  | text (s : String)
  | address (a : Ipv4.Address)
  deriving DecidableEq

namespace Value

instance : Inhabited Value := ⟨.int 0⟩

def asInt? : Value → Option Int64
  | .int n => some n
  | _ => none

def render : Value → String
  | .int n => Decimal.text n.toInt
  | .text s => Quoted.text s
  | .address a => a.render

/-! ### Order -/

/-- Integers, then texts, then addresses, each kind in its own order. -/
def order : Value → Value → Ordering
  | .int a, .int b => compare a b
  | .int _, _ => .lt
  | .text _, .int _ => .gt
  | .text a, .text b => compare a b
  | .text _, .address _ => .lt
  | .address a, .address b => compare a.bits.toNat b.bits.toNat
  | .address _, _ => .gt

instance : Std.TransCmp order where
  eq_swap {a b} := by
    cases a <;> cases b
    case int.int => exact Std.OrientedOrd.eq_swap
    case text.text => exact Std.OrientedOrd.eq_swap
    case address.address => exact Std.OrientedOrd.eq_swap
    all_goals rfl
  isLE_trans {a b c} := by
    cases a <;> cases b <;> cases c
    case int.int.int => exact Std.TransOrd.isLE_trans
    case text.text.text => exact Std.TransOrd.isLE_trans
    case address.address.address => exact Std.TransOrd.isLE_trans
    all_goals simp [order]

instance : Std.LawfulEqCmp order where
  compare_self {a} := by cases a <;> exact Std.ReflOrd.compare_self
  eq_of_compare {a b} h := by
    cases a <;> cases b <;> simp only [order, reduceCtorEq] at h
    · rw [Std.LawfulEqOrd.eq_of_compare h]
    · rw [Std.LawfulEqOrd.eq_of_compare h]
    · next a b => rw [show a = b by
        cases a; cases b; simpa [BitVec.toNat_inj] using Std.LawfulEqOrd.eq_of_compare h]

instance : Ord Value := ⟨order⟩

instance : Std.TransOrd Value := inferInstanceAs (Std.TransCmp order)

instance : Std.LawfulEqOrd Value := inferInstanceAs (Std.LawfulEqCmp order)

end Value

/-!
## Locations

Where a packet is in the network, and the links that carry it from one place to
another. Switches and ports are known by their numbers.
-/

/-- A switch and one of its ports. -/
@[ext] structure Location where
  switch : Int64
  port : Int64
  deriving DecidableEq

namespace Location

/-- By switch, then by port. -/
instance : Ord Location := ⟨compareLex (compareOn switch) (compareOn port)⟩

instance : Std.TransOrd Location :=
  inferInstanceAs (Std.TransCmp (compareLex (compareOn switch) (compareOn port)))

instance : Std.LawfulEqOrd Location where
  compare_self := Std.ReflCmp.compare_self
  eq_of_compare h := by
    obtain ⟨h₁, h₂⟩ := compareLex_eq_eq.1 h
    exact Location.ext (Std.LawfulEqOrd.eq_of_compare h₁) (Std.LawfulEqOrd.eq_of_compare h₂)

end Location

/-- A one-way link: what leaves by the source arrives at the target. -/
structure Link where
  source : Location
  target : Location
  deriving DecidableEq

namespace Link

/-- The four numbers of a link, in the order of its written form. -/
def numbers (l : Link) : List Int64 :=
  [l.source.switch, l.source.port, l.target.switch, l.target.port]

end Link

/-! ## Records of headers -/

@[ext] structure Packet where
  headers : SortedMap String Value
  deriving DecidableEq

namespace Packet

instance : Inhabited Packet := ⟨⟨.empty⟩⟩

def empty : Packet := ⟨.empty⟩

/-- Of two values for one header the later stays. -/
def ofList (fields : List (String × Value)) : Packet := ⟨.ofList fields⟩

def get? (p : Packet) (field : String) : Option Value := p.headers.get? field

def set (p : Packet) (field : String) (v : Value) : Packet := ⟨p.headers.insert field v⟩

def unset (p : Packet) (field : String) : Packet := ⟨p.headers.erase field⟩

def render (p : Packet) : String :=
  "\x7b" ++ ", ".intercalate (p.headers.entries.map fun e => e.1 ++ "=" ++ e.2.render) ++ "\x7d"

theorem ext_get? {p q : Packet} (h : ∀ field, p.get? field = q.get? field) : p = q :=
  Packet.ext (SortedMap.ext_get? h)

theorem get?_set (p : Packet) (field f : String) (v : Value) :
    (p.set field v).get? f = if f = field then some v else p.get? f :=
  p.headers.get?_insert field f v

theorem get?_unset (p : Packet) (field f : String) :
    (p.unset field).get? f = if f = field then none else p.get? f :=
  p.headers.get?_erase field f

/-! ### Order -/

/-- Headers are ordered by name, then by value. -/
instance : Ord (String × Value) := ⟨compareLex (compareOn Prod.fst) (compareOn Prod.snd)⟩

instance : Std.TransOrd (String × Value) :=
  inferInstanceAs (Std.TransCmp (compareLex (compareOn Prod.fst) (compareOn Prod.snd)))

instance : Std.LawfulEqOrd (String × Value) where
  compare_self := Std.ReflCmp.compare_self
  eq_of_compare {a b} h := by
    obtain ⟨h₁, h₂⟩ := compareLex_eq_eq.1 h
    exact Prod.ext (Std.LawfulEqOrd.eq_of_compare h₁) (Std.LawfulEqOrd.eq_of_compare h₂)

/-- Packets are ordered by their headers, from the first name on. -/
instance : Ord Packet := ⟨compareOn fun p => p.headers.entries⟩

instance : Std.TransOrd Packet :=
  inferInstanceAs (Std.TransCmp (compareOn fun p : Packet => p.headers.entries))

instance : Std.LawfulEqOrd Packet where
  compare_self := Std.ReflCmp.compare_self
  eq_of_compare h := Packet.ext (SortedMap.entries_inj.1 (Std.LawfulEqOrd.eq_of_compare h))

end Packet

abbrev PacketSet := SortedSet Packet

/-- The packets in the order of their written forms. -/
def PacketSet.listed (s : PacketSet) : List Packet :=
  s.toList.mergeSort fun p q => p.render ≤ q.render

end PacketPolicy
