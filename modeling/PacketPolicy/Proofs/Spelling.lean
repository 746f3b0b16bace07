import PacketPolicy.Language.Lexeme
import Mathlib.Tactic

/-!
# Spellings of literals

How numbers, texts, addresses and networks may be spelled, and that each spelling is
read back, whatever follows it. A number may carry a plus sign, a backslash may stand
for itself, and the length of a network may be given by leading zeros and digits or by
its mask.
-/

namespace PacketPolicy

/-- The characters of a run come to an end here. -/
def RunEnds (p : Char → Bool) (s : List Char) : Prop := ∀ c ∈ s.head?, p c = false

theorem RunEnds.mono {p q : Char → Bool} {s : List Char} (hs : RunEnds q s)
    (h : ∀ c, p c = true → q c = true) : RunEnds p s := by
  intro c hc
  by_contra hp
  have hq := hs c hc
  rw [h c (Bool.not_eq_false _ ▸ hp)] at hq
  cases hq

theorem RunEnds.takeWhile_append {p : Char → Bool} {w s : List Char} (hs : RunEnds p s)
    (hw : ∀ c ∈ w, p c = true) : (w ++ s).takeWhile p = w := by
  rw [List.takeWhile_append_of_pos hw]
  cases s with
  | nil => simp
  | cons c s => simp [hs c rfl]

theorem RunEnds.dropWhile_append {p : Char → Bool} {w s : List Char} (hs : RunEnds p s)
    (hw : ∀ c ∈ w, p c = true) : (w ++ s).dropWhile p = s := by
  have hsplit : (w ++ s).takeWhile p ++ (w ++ s).dropWhile p = w ++ s :=
    List.takeWhile_append_dropWhile
  rw [hs.takeWhile_append hw] at hsplit
  exact List.append_cancel_left hsplit

/-! ## Numbers -/

namespace Decimal

theorem isDigit_of_mem_ofNat {n : Nat} {c : Char} (h : c ∈ ofNat n) : c.isDigit = true :=
  Nat.isDigit_of_mem_toDigits (by decide) (by decide) h

/-- The numeral of a positive number does not begin with a zero. -/
theorem exists_ofNat_eq_cons {n : Nat} (hn : 0 < n) : ∃ c ds, ofNat n = c :: ds ∧ c ≠ '0' := by
  induction n using Nat.strong_induction_on with
  | _ n ih =>
    by_cases hlt : n < 10
    · refine ⟨n.digitChar, [], Nat.toDigits_of_lt_base hlt, ?_⟩
      rw [ne_eq, Nat.digitChar_eq_zero]
      omega
    · obtain ⟨c, ds, hds, hc⟩ := ih (n / 10) (by omega) (by omega)
      refine ⟨c, ds ++ [(n % 10).digitChar], ?_, hc⟩
      rw [ofNat, Nat.toDigits_of_base_le (by decide) (by omega)]
      exact congrArg (· ++ [(n % 10).digitChar]) hds

theorem isDigit_of_mem_zeros_append {zeros n : Nat} {c : Char}
    (h : c ∈ List.replicate zeros '0' ++ ofNat n) : c.isDigit = true := by
  rcases List.mem_append.1 h with h | h
  · rw [List.eq_of_mem_replicate h]
    rfl
  · exact isDigit_of_mem_ofNat h

/-- Leading zeros do not change the number. -/
theorem nat?_zeros_append (zeros n : Nat) :
    nat? (List.replicate zeros '0' ++ ofNat n) = some n := by
  have hne : List.replicate zeros '0' ++ ofNat n ≠ [] := by simp [ofNat]
  have hdigits : (List.replicate zeros '0' ++ ofNat n).all Char.isDigit = true :=
    List.all_eq_true.2 fun _ => isDigit_of_mem_zeros_append
  rw [nat?, if_pos ⟨hne, hdigits⟩, Nat.ofDigitChars_append, Nat.ofDigitChars_replicate_zero,
    Nat.mul_zero, ofNat, Nat.ofDigitChars_ten_toDigits]

/-- The numerals of an integer. Zero carries no sign; other numbers may carry a plus sign. -/
inductive Numeral : List Char → Int → Prop
  | zero : Numeral ['0'] 0
  | positive {n : Nat} : 0 < n → Numeral (ofNat n) n
  | plus {n : Nat} : 0 < n → Numeral ('+' :: ofNat n) n
  | minus {n : Nat} : 0 < n → Numeral ('-' :: ofNat n) (-n)

theorem numeral_ofInt (k : Int) : Numeral (ofInt k) k := by
  cases k with
  | ofNat n =>
    rcases Nat.eq_zero_or_pos n with rfl | hn
    · exact .zero
    · exact .positive hn
  | negSucc n => exact .minus (Nat.succ_pos n)

theorem unsigned?_ofNat_append {n : Nat} (hn : 0 < n) {s : List Char}
    (hs : RunEnds Char.isDigit s) :
    Lexeme.digits?.unsigned? (ofNat n ++ s) = some ((n : Int), s) := by
  obtain ⟨c, ds, hds, hc⟩ := exists_ofNat_eq_cons hn
  have hdigits : ∀ d ∈ ofNat n, d.isDigit = true := fun _ => isDigit_of_mem_ofNat
  have htake := hs.takeWhile_append hdigits
  have hdrop := hs.dropWhile_append hdigits
  have hcd : c.isDigit = true := hdigits c (by simp [hds])
  have hvalue : Nat.ofDigitChars 10 (ofNat n) 0 = n := Nat.ofDigitChars_ten_toDigits
  rw [hds, List.cons_append] at htake hdrop ⊢
  rw [Lexeme.digits?.unsigned?, if_pos ⟨hcd, hc⟩, htake, hdrop, ← hds, hvalue]
  rfl

theorem Numeral.digits?_append {w : List Char} {k : Int} (h : Numeral w k) {s : List Char}
    (hs : RunEnds Char.isDigit s) : Lexeme.digits? (w ++ s) = some (k, s) := by
  cases h with
  | zero => rfl
  | plus hn => exact unsigned?_ofNat_append hn hs
  | @minus n hn =>
    have hread := unsigned?_ofNat_append hn hs
    simp [Lexeme.digits?, hread]
  | @positive n hn =>
    obtain ⟨c, ds, hds, hc⟩ := exists_ofNat_eq_cons hn
    have hcd : c.isDigit = true := isDigit_of_mem_ofNat (n := n) (by simp [hds])
    have hplus : c ≠ '+' := by
      rintro rfl
      cases hcd
    have hminus : c ≠ '-' := by
      rintro rfl
      cases hcd
    rw [← unsigned?_ofNat_append hn hs, hds]
    simp [Lexeme.digits?, hc, hplus, hminus]

/-- In a numeral, the run that a network would take is digits only. -/
theorem Numeral.isDigit_of_mem_takeWhile {w : List Char} {k : Int} (h : Numeral w k)
    {s : List Char} (hs : RunEnds Lexeme.isNetworkPart s) {c : Char}
    (hc : c ∈ (w ++ s).takeWhile Lexeme.isNetworkPart) : c.isDigit = true := by
  have hall : ∀ {v : List Char}, (∀ d ∈ v, d.isDigit = true) →
      (v ++ s).takeWhile Lexeme.isNetworkPart = v := by
    intro v hv
    refine hs.takeWhile_append fun d hd => ?_
    simp [Lexeme.isNetworkPart, hv d hd]
  cases h with
  | zero =>
    rw [hall (List.forall_mem_singleton.2 rfl), List.mem_singleton] at hc
    exact hc ▸ rfl
  | positive =>
    rw [hall fun _ => isDigit_of_mem_ofNat] at hc
    exact isDigit_of_mem_ofNat hc
  -- a sign ends the run before it begins
  | plus => cases hc
  | minus => cases hc

theorem Numeral.ne_nil {w : List Char} {k : Int} (h : Numeral w k) : w ≠ [] := by
  cases h <;> simp [ofNat]

end Decimal

/-! ## Texts -/

namespace Quoted

/-- What may stand between the quotes for a text. A backslash before another character than a
quote or a backslash stands for itself. -/
inductive Written : List Char → List Char → Prop
  | nil : Written [] []
  | plain {c w s} : c ≠ '"' → c ≠ '\\' → Written w s → Written (c :: w) (c :: s)
  | escaped {c w s} : c = '"' ∨ c = '\\' → Written w s → Written ('\\' :: c :: w) (c :: s)
  | backslash {c w s} : c ≠ '"' → c ≠ '\\' → Written w s →
      Written ('\\' :: c :: w) ('\\' :: c :: s)

theorem written_escape (s : List Char) : Written (escape s) s := by
  induction s with
  | nil => exact .nil
  | cons c s ih =>
    rw [escape]
    split
    · next h => exact .escaped h ih
    · next h => exact .plain (fun e => h (.inl e)) (fun e => h (.inr e)) ih

theorem Written.read?_append {w s : List Char} (h : Written w s) (rest : List Char) :
    read? (w ++ '"' :: rest) = some (s, rest) := by
  induction h with
  | nil => rfl
  | plain hquote hbackslash _ ih => simp [read?, hbackslash, ih]
  | escaped hc _ ih => simp [read?, hc, ih]
  | backslash hquote hbackslash _ ih => simp [read?, hquote, hbackslash, ih]

end Quoted

/-! ## Addresses and networks -/

namespace Ipv4

namespace Address

theorem lt_of_mem_octets {a : Address} {n : Nat} (h : n ∈ a.octets) : n < 256 := by
  have := a.bits.isLt
  simp only [octets, List.mem_cons, List.not_mem_nil, or_false] at h
  omega

theorem octet?_ofNat {n : Nat} (hn : n < 256) : octet? (Decimal.ofNat n) = some n := by
  simp [octet?, Decimal.nat?_ofNat, Option.filter, hn]

theorem ofOctets_octets (a : Address) :
    ofOctets (a.bits.toNat / 256 / 256 / 256) (a.bits.toNat / 256 / 256 % 256)
      (a.bits.toNat / 256 % 256) (a.bits.toNat % 256) = a := by
  have hsame : ((a.bits.toNat / 256 / 256 / 256 * 256 + a.bits.toNat / 256 / 256 % 256) * 256
      + a.bits.toNat / 256 % 256) * 256 + a.bits.toNat % 256 = a.bits.toNat := by omega
  rw [ofOctets, hsame, BitVec.ofNat_toNat, BitVec.setWidth_eq]

theorem mem_chars {a : Address} {c : Char} (h : c ∈ a.chars) : c.isDigit = true ∨ c = '.' := by
  simp only [chars, octets, List.map_cons, List.map_nil, List.intercalate, List.intersperse,
    List.flatten_cons, List.flatten_nil, List.mem_append, List.mem_cons, List.not_mem_nil,
    or_false] at h
  rcases h with h | h | h | h | h | h | h
  all_goals first
    | exact .inr h
    | exact .inl (Decimal.isDigit_of_mem_ofNat h)

theorem ofChars?_chars (a : Address) : ofChars? a.chars = some a := by
  have hparts : a.chars.splitOn '.' = a.octets.map Decimal.ofNat := by
    refine List.splitOn_intercalate '.' ?_ (by simp [octets])
    intro l hl hdot
    obtain ⟨n, -, rfl⟩ := List.mem_map.1 hl
    have := Decimal.isDigit_of_mem_ofNat hdot
    contradiction
  have hoctets : ∀ n ∈ a.octets, octet? (Decimal.ofNat n) = some n :=
    fun n hn => octet?_ofNat (lt_of_mem_octets hn)
  simp only [octets, List.forall_mem_cons] at hoctets
  obtain ⟨h₁, h₂, h₃, h₄, -⟩ := hoctets
  rw [ofChars?, hparts]
  simp only [octets, List.map_cons, List.map_nil, h₁, h₂, h₃, h₄]
  exact congrArg some a.ofOctets_octets

theorem ofChars?_eq_none {w : List Char} (h : '.' ∉ w) : ofChars? w = none := by
  have hone : (['.'].intercalate [w]).splitOn '.' = [w] :=
    List.splitOn_intercalate '.' (by simpa using h) (by simp)
  rw [List.intercalate_singleton] at hone
  rw [ofChars?, hone]

theorem chars_ne_nil (a : Address) : a.chars ≠ [] := by
  intro h
  have hread := ofChars?_chars a
  rw [h, ofChars?_eq_none List.not_mem_nil] at hread
  cases hread

theorem slash_not_mem_chars (a : Address) : '/' ∉ a.chars := by
  intro h
  rcases mem_chars h with h | h <;> contradiction

end Address

namespace Network

/-- The spellings of a network: an address alone, an address with a length, which may have leading
zeros, or an address with a mask. -/
inductive Spelled : Network → List Char → Prop
  | alone (a : Address) : Spelled (host a) a.chars
  | withLength (n : Network) (zeros : Nat) : Spelled n
      (n.address.chars ++ '/' :: (List.replicate zeros '0' ++ Decimal.ofNat n.length))
  | withMask (n : Network) : Spelled n
      (n.address.chars ++ '/' :: (Address.mk (mask n.length)).chars)

theorem lengthOfMask?_mask {l : Nat} (hl : l ≤ 32) : lengthOfMask? ⟨mask l⟩ = some l := by
  have hall : ∀ l < 33, lengthOfMask? ⟨mask l⟩ = some l := by decide +kernel
  exact hall l (by omega)

theorem splitOn_slash {u v : List Char} (hu : '/' ∉ u) (hv : '/' ∉ v) :
    (u ++ '/' :: v).splitOn '/' = [u, v] := by
  have htwo : (['/'].intercalate [u, v]).splitOn '/' = [u, v] :=
    List.splitOn_intercalate '/' (by simp [hu, hv]) (by simp)
  simpa [List.intercalate, List.intersperse] using htwo

theorem ofChars?_eq_none {w : List Char} (hslash : '/' ∉ w) (hdot : '.' ∉ w) :
    ofChars? w = none := by
  have hone : (['/'].intercalate [w]).splitOn '/' = [w] :=
    List.splitOn_intercalate '/' (by simpa using hslash) (by simp)
  rw [List.intercalate_singleton] at hone
  simp [ofChars?, hone, Address.ofChars?_eq_none hdot]

theorem lengthOfNumeral?_zeros_append {l : Nat} (hl : l ≤ 32) (zeros : Nat) :
    lengthOfNumeral? (List.replicate zeros '0' ++ Decimal.ofNat l) = some l := by
  have hplus : '+' ∉ List.replicate zeros '0' ++ Decimal.ofNat l :=
    fun h => absurd (Decimal.isDigit_of_mem_zeros_append h) (by decide)
  have hnat := Decimal.nat?_zeros_append zeros l
  unfold lengthOfNumeral?
  split
  · next hcons => simp [hcons] at hplus
  · simp [hnat, Option.filter, hl]

theorem base_eq_address {n : Network} (h : n.length = 32) : n.base = n.address := by
  simp [base, lead, h]

theorem Spelled.ofChars?_eq {n : Network} {w : List Char} (h : Spelled n w) :
    ofChars? w = some n := by
  cases h with
  | alone a =>
    have hone : (['/'].intercalate [a.chars]).splitOn '/' = [a.chars] :=
      List.splitOn_intercalate '/' (by simp [a.slash_not_mem_chars]) (by simp)
    rw [List.intercalate_singleton] at hone
    simp [ofChars?, hone, a.ofChars?_chars]
  | withLength n zeros =>
    have hslash : '/' ∉ List.replicate zeros '0' ++ Decimal.ofNat n.length :=
      fun h => absurd (Decimal.isDigit_of_mem_zeros_append h) (by decide)
    have hdot : '.' ∉ List.replicate zeros '0' ++ Decimal.ofNat n.length :=
      fun h => absurd (Decimal.isDigit_of_mem_zeros_append h) (by decide)
    have hsplit := splitOn_slash n.address.slash_not_mem_chars hslash
    simp [ofChars?, hsplit, Address.ofChars?_chars, Address.ofChars?_eq_none hdot,
      lengthOfNumeral?_zeros_append n.length_le, ofParts?, n.length_le]
  | withMask n =>
    have hsplit := splitOn_slash n.address.slash_not_mem_chars
      (Address.slash_not_mem_chars ⟨Network.mask n.length⟩)
    simp [ofChars?, hsplit, Address.ofChars?_chars, lengthOfMask?_mask n.length_le, ofParts?,
      n.length_le]

theorem Spelled.ne_nil {n : Network} {w : List Char} (h : Spelled n w) : w ≠ [] := by
  cases h with
  | alone a => exact a.chars_ne_nil
  | withLength n _ => simp
  | withMask n => simp

theorem Spelled.isNetworkPart {n : Network} {w : List Char} (h : Spelled n w) :
    ∀ c ∈ w, Lexeme.isNetworkPart c = true := by
  have hdigit : ∀ c : Char, c.isDigit = true → Lexeme.isNetworkPart c = true := by
    intro c hc
    simp [Lexeme.isNetworkPart, hc]
  have haddress : ∀ (a : Address), ∀ c ∈ a.chars, Lexeme.isNetworkPart c = true := by
    intro a c hc
    rcases Address.mem_chars hc with hc | rfl
    · exact hdigit c hc
    · rfl
  cases h with
  | alone a => exact haddress a
  | withLength n zeros =>
    simp only [List.forall_mem_append, List.forall_mem_cons]
    exact ⟨haddress _, rfl, List.forall_mem_append.1 fun c hc =>
      hdigit c (Decimal.isDigit_of_mem_zeros_append hc)⟩
  | withMask n =>
    simp only [List.forall_mem_append, List.forall_mem_cons]
    exact ⟨haddress _, rfl, haddress _⟩

end Network

end Ipv4

end PacketPolicy
