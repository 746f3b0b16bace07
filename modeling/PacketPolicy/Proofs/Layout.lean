import PacketPolicy.Language.Grammar
import PacketPolicy.Proofs.Spelling

/-!
# Tokens and their layout

A text is laid out from tokens: each token in one of its spellings, with any blanks and
comments before, between and behind the tokens, or nothing at all. Where a token that is
no mark is followed by a mark or by the end, its characters cannot run into what follows.
-/

namespace PacketPolicy

namespace Lexeme

/-- A letter or underscore, and then letters, digits and underscores. -/
def isIdentifier (w : String) : Bool :=
  match w.toList with
  | c :: rest => isWordStart c && rest.all isWordPart
  | [] => false

end Lexeme

/-- Punctuation and operators. -/
inductive Mark where
  | opening
  | closing
  | comma
  | equals
  | tilde
  | operator (op : Operator)
  deriving DecidableEq

def Mark.chars : Mark → List Char
  | .opening => ['(']
  | .closing => [')']
  | .comma => [',']
  | .equals => ['=']
  | .tilde => ['~']
  | .operator op => op.symbol.toList

inductive Token where
  | word (w : String)
  | integer (n : Int64)
  | text (s : String)
  | network (n : Ipv4.Network)
  | mark (m : Mark)

namespace Token

/-- The spellings of a token. A network may be spelled with other bits after its length. -/
inductive Spelled : Token → List Char → Prop
  | word {w} : Lexeme.isIdentifier w = true → Spelled (.word w) w.toList
  | integer {n w} : Decimal.Numeral w n.toInt → Spelled (.integer n) w
  | text {s w} : Quoted.Written w s.toList → Spelled (.text s) ('"' :: w ++ ['"'])
  | network {n : Ipv4.Network} {w} : n.Spelled w → Spelled (.network n.normalize) w
  | mark (m : Mark) : Spelled (.mark m) m.chars

end Token

/-- Blanks, and comments that end with a line feed. -/
inductive Gap : List Char → Prop
  | nil : Gap []
  | blank {c g} : Lexeme.isBlank c = true → Gap g → Gap (c :: g)
  | comment {body g} : (∀ c ∈ body, c ≠ '\n' ∧ c ≠ '\r') → Gap g →
      Gap ('#' :: body ++ '\n' :: g)

/-- The characters are laid out from the tokens. -/
inductive Layout : List Token → List Char → Prop
  | nil {g} : Gap g → Layout [] g
  | cons {g t w ts s} : Gap g → t.Spelled w → Layout ts s → Layout (t :: ts) (g ++ w ++ s)

/-- A layout that begins with the first token. -/
inductive Flush : List Token → List Char → Prop
  | nil : Flush [] []
  | cons {t w ts s} : t.Spelled w → Layout ts s → Flush (t :: ts) (w ++ s)

/-! ## Gaps -/

namespace Gap

theorem append {g h : List Char} (hg : Gap g) (hh : Gap h) : Gap (g ++ h) := by
  induction hg with
  | nil => exact hh
  | blank hc _ ih => exact .blank hc ih
  | comment hbody _ ih =>
    rw [List.append_assoc]
    exact .comment hbody ih

theorem skipComment_append {start body : List Char} (hbody : ∀ c ∈ body, c ≠ '\n' ∧ c ≠ '\r')
    (s : List Char) : Lexeme.skipComment start (body ++ '\n' :: s) = Lexeme.skip s := by
  induction body with
  | nil => simp [Lexeme.skipComment]
  | cons c body ih =>
    obtain ⟨⟨hfeed, hreturn⟩, hbody⟩ := List.forall_mem_cons.1 hbody
    rw [List.cons_append, Lexeme.skipComment.eq_def]
    simp only [hfeed, hreturn, if_false]
    exact ih hbody

theorem skip_append {g : List Char} (hg : Gap g) (s : List Char) :
    Lexeme.skip (g ++ s) = Lexeme.skip s := by
  induction hg with
  | nil => rfl
  | blank hc _ ih => simp [Lexeme.skip, hc, ih]
  | @comment body g hbody _ ih =>
    rw [List.append_assoc, List.cons_append, Lexeme.skip, if_neg (by decide), if_pos rfl]
    exact (skipComment_append hbody _).trans ih

theorem skip_eq_nil {g : List Char} (hg : Gap g) : Lexeme.skip g = [] := by
  have h := hg.skip_append []
  rwa [List.append_nil] at h

end Gap

/-! ## Where tokens begin and end -/

namespace Lexeme

/-- No blank, and no beginning of a comment. -/
def isVisible (c : Char) : Bool := !isBlank c && c != '#'

theorem skip_of_isVisible {c : Char} (hc : isVisible c = true) (s : List Char) :
    skip (c :: s) = c :: s := by
  simp only [isVisible, Bool.and_eq_true, Bool.not_eq_true', bne_iff_ne] at hc
  simp [skip, hc.1, hc.2]

/-- The characters of words, numerals and networks. -/
def isInner (c : Char) : Bool := isWordPart c || c = '.' || c = '/'

theorem isVisible_of_isInner {c : Char} (h : isInner c = true) : isVisible c = true := by
  have hhash : c ≠ '#' := by
    rintro rfl
    contradiction
  have hblank : isBlank c = false := by
    by_contra hc
    simp only [isBlank, Bool.or_eq_true, decide_eq_true_eq, Bool.not_eq_false] at hc
    rcases hc with (((rfl | rfl) | rfl) | rfl) | rfl <;> contradiction
  simp [isVisible, hhash, hblank]

theorem isInner_of_isDigit {c : Char} (h : c.isDigit = true) : isInner c = true := by
  simp [isInner, isWordPart, Char.isAlphanum, h]

theorem isInner_of_isNetworkPart {c : Char} (h : isNetworkPart c = true) : isInner c = true := by
  simp only [isNetworkPart, Bool.or_eq_true, decide_eq_true_eq] at h
  rcases h with (h | rfl) | rfl
  · exact isInner_of_isDigit h
  · rfl
  · rfl

theorem isInner_of_isWordPart {c : Char} (h : isWordPart c = true) : isInner c = true := by
  simp [isInner, h]

theorem isWordPart_of_isWordStart {c : Char} (h : isWordStart c = true) : isWordPart c = true := by
  simp only [isWordStart, isWordPart, Char.isAlphanum, Bool.or_eq_true] at h ⊢
  tauto

end Lexeme

/-- A mark is not blank, and does not belong to a word, numeral or network. -/
theorem Mark.exists_chars_eq_cons (m : Mark) : ∃ c cs, m.chars = c :: cs ∧
    Lexeme.isVisible c = true ∧ Lexeme.isInner c = false := by
  cases m with
  | operator op => cases op <;> exact ⟨_, _, rfl, rfl, rfl⟩
  | _ => exact ⟨_, _, rfl, rfl, rfl⟩

/-- The token begins with the character, in one of its spellings. -/
def Token.Begins (t : Token) (c : Char) : Prop := ∃ w, t.Spelled (c :: w)

namespace Token

theorem begins_word {w : String} {c : Char} (h : (word w).Begins c) :
    Lexeme.isWordStart c = true := by
  obtain ⟨v, hv⟩ := h
  generalize hw : c :: v = u at hv
  cases hv with
  | word hid =>
    simp only [Lexeme.isIdentifier, ← hw, Bool.and_eq_true] at hid
    exact hid.1

theorem begins_mark {m : Mark} {c : Char} (h : (mark m).Begins c) : m.chars.head? = some c := by
  obtain ⟨v, hv⟩ := h
  generalize hw : c :: v = u at hv
  cases hv with
  | mark => rw [← hw]; rfl

theorem begins_text {s : String} {c : Char} (h : (text s).Begins c) : c = '"' := by
  obtain ⟨v, hv⟩ := h
  generalize hw : c :: v = u at hv
  cases hv with
  | text => exact (List.cons.inj hw).1

theorem begins_network {n : Ipv4.Network} {c : Char} (h : (network n).Begins c) :
    Lexeme.isNetworkPart c = true := by
  obtain ⟨v, hv⟩ := h
  generalize hw : c :: v = u at hv
  cases hv with
  | network hn => exact hn.isNetworkPart c (by simp [← hw])

theorem begins_integer {n : Int64} {c : Char} (h : (integer n).Begins c) :
    c.isDigit = true ∨ c = '+' ∨ c = '-' := by
  obtain ⟨v, hv⟩ := h
  generalize hw : c :: v = u at hv
  cases hv with
  | integer hn =>
    generalize n.toInt = k at hn
    cases hn with
    | zero => exact .inl ((List.cons.inj hw).1 ▸ rfl)
    | positive => exact .inl (Decimal.isDigit_of_mem_ofNat (hw ▸ List.mem_cons_self))
    | plus => exact .inr (.inl (List.cons.inj hw).1)
    | minus => exact .inr (.inr (List.cons.inj hw).1)

theorem Begins.isVisible {t : Token} {c : Char} (h : t.Begins c) : Lexeme.isVisible c = true := by
  cases t with
  | word w =>
    exact Lexeme.isVisible_of_isInner
      (Lexeme.isInner_of_isWordPart (Lexeme.isWordPart_of_isWordStart (begins_word h)))
  | integer n =>
    rcases begins_integer h with hc | rfl | rfl
    · exact Lexeme.isVisible_of_isInner (Lexeme.isInner_of_isDigit hc)
    · rfl
    · rfl
  | text s => exact begins_text h ▸ rfl
  | network n =>
    exact Lexeme.isVisible_of_isInner (Lexeme.isInner_of_isNetworkPart (begins_network h))
  | mark m =>
    obtain ⟨d, ds, hchars, hd, -⟩ := m.exists_chars_eq_cons
    have hc := begins_mark h
    rw [hchars] at hc
    exact Option.some.inj hc ▸ hd

theorem Spelled.exists_eq_cons {t : Token} {w : List Char} (h : t.Spelled w) :
    ∃ c v, w = c :: v ∧ Lexeme.isVisible c = true := by
  cases w with
  | cons c v => exact ⟨c, v, rfl, Begins.isVisible ⟨v, h⟩⟩
  | nil =>
    generalize hnil : ([] : List Char) = w at h
    cases h with
    | word hid => simp [Lexeme.isIdentifier, ← hnil] at hid
    | integer hn => exact absurd hnil.symm hn.ne_nil
    | text => cases hnil
    | network hn => exact absurd hnil.symm hn.ne_nil
    | mark m =>
      obtain ⟨d, ds, hchars, -⟩ := m.exists_chars_eq_cons
      rw [hchars] at hnil
      cases hnil

end Token

/-! ## Layouts -/

namespace Layout

theorem token {t : Token} {w s : List Char} {ts : List Token} (hw : t.Spelled w)
    (hs : Layout ts s) : Layout (t :: ts) (w ++ s) :=
  .cons (g := []) .nil hw hs

theorem gap_append {g s : List Char} {ts : List Token} (hg : Gap g) (h : Layout ts s) :
    Layout ts (g ++ s) := by
  cases h with
  | nil hg' => exact .nil (hg.append hg')
  | cons hg' hw hs =>
    rw [← List.append_assoc, ← List.append_assoc]
    exact .cons (hg.append hg') hw hs

theorem append {ts us : List Token} {s u : List Char} (hs : Layout ts s) (hu : Layout us u) :
    Layout (ts ++ us) (s ++ u) := by
  induction hs with
  | nil hg => exact gap_append hg hu
  | cons hg hw _ ih =>
    rw [List.append_assoc, List.cons_append]
    exact .cons hg hw ih

/-- A single token. -/
theorem one {t : Token} {w : List Char} (h : t.Spelled w) : Layout [t] w := by
  have hone := token h (.nil .nil)
  rwa [List.append_nil] at hone

theorem length_le {ts : List Token} {s : List Char} (h : Layout ts s) : ts.length ≤ s.length := by
  induction h with
  | nil => simp
  | cons _ hw _ ih =>
    obtain ⟨c, v, rfl, -⟩ := hw.exists_eq_cons
    simp only [List.length_cons, List.length_append]
    omega

/-- Skipping the first gap leaves the tokens. -/
theorem flush_skip {ts : List Token} {s : List Char} (h : Layout ts s) :
    Flush ts (Lexeme.skip s) ∧ (Lexeme.skip s).length ≤ s.length := by
  cases h with
  | nil hg =>
    rw [hg.skip_eq_nil]
    exact ⟨.nil, Nat.zero_le _⟩
  | cons hg hw hs =>
    obtain ⟨c, v, rfl, hc⟩ := hw.exists_eq_cons
    rw [List.append_assoc, hg.skip_append, List.cons_append, Lexeme.skip_of_isVisible hc]
    refine ⟨.cons hw hs, ?_⟩
    simp

end Layout

theorem Flush.layout {ts : List Token} {s : List Char} (h : Flush ts s) : Layout ts s := by
  cases h with
  | nil => exact .nil .nil
  | cons hw hs => exact .token hw hs

/-- The end, or a mark: here no word, numeral or network goes on. -/
def Closes (ts : List Token) : Prop := ∀ t ∈ ts.head?, ∃ m, t = .mark m

theorem closes_mark (m : Mark) (us : List Token) : Closes (.mark m :: us) := by
  intro t ht
  exact ⟨m, (Option.some.inj ht).symm⟩

/-- What is laid out behind a word, numeral or network ends it. -/
theorem Layout.runEnds {ts : List Token} {s : List Char} (h : Layout ts s) (hts : Closes ts) :
    RunEnds Lexeme.isInner s := by
  intro c hc
  by_contra hinner
  rw [Bool.not_eq_false] at hinner
  obtain ⟨rest, rfl⟩ := List.head?_eq_some_iff.1 hc
  have hflush := h.flush_skip.1
  rw [Lexeme.skip_of_isVisible (Lexeme.isVisible_of_isInner hinner)] at hflush
  -- without a gap, the character is the first of a mark
  generalize hs : c :: rest = s at hflush
  cases hflush with
  | nil => cases hs
  | cons hw _ =>
    obtain ⟨m, rfl⟩ := hts _ rfl
    cases hw
    obtain ⟨d, ds, hchars, -, hd⟩ := m.exists_chars_eq_cons
    rw [hchars] at hs
    rw [(List.cons.inj hs).1, hd] at hinner
    cases hinner

end PacketPolicy
