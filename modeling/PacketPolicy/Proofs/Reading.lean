import PacketPolicy.Proofs.Layout

/-!
# Scans on laid out tokens

What a scan does is said about tokens: from every text laid out from some tokens it reads
a value and leaves a text laid out from other tokens, or it refuses all of them, so that
an alternative is tried. There is one rule for each combinator and each lexeme, and a
grammar is read off from them without looking at characters again.
-/

namespace PacketPolicy

open Scan

variable {α β : Type} {F : List Token → List Char → Prop} {p q : Scan α} {f : α → Scan β}
  {ts us vs : List Token} {a : α} {b : β}

/-- From every text that lays out `ts` in the sense of `F`, the scan reads `a` and leaves a layout
of `us`. Every token read took a character at least. -/
def Reads (F : List Token → List Char → Prop) (p : Scan α) (ts : List Token) (a : α)
    (us : List Token) : Prop :=
  ∀ s, F ts s → ∃ rest, p s = .done a rest ∧ Layout us rest ∧
    rest.length + ts.length ≤ s.length + us.length

/-- Every text that lays out `ts` in the sense of `F` makes the scan fail, but not finally. -/
def Refuses (F : List Token → List Char → Prop) (p : Scan α) (ts : List Token) : Prop :=
  ∀ s, F ts s → ∃ rest expected, p s = .fail false rest expected

/-! ## Combinators -/

namespace Reads

theorem pure (a : α) : Reads Layout (pure a) ts a ts :=
  fun s hs => ⟨s, rfl, hs, Nat.le_refl _⟩

theorem bind (hp : Reads F p ts a us) (hf : Reads Layout (f a) us b vs) :
    Reads F (p >>= f) ts b vs := by
  intro s hs
  obtain ⟨r, hpr, hr, hlen⟩ := hp s hs
  obtain ⟨r', hfr, hr', hlen'⟩ := hf r hr
  refine ⟨r', ?_, hr', by omega⟩
  simp only [Bind.bind, hpr, hfr]

theorem map (g : α → β) (hp : Reads F p ts a us) : Reads F (g <$> p) ts (g a) us :=
  hp.bind (pure (g a))

/-- A scan that does nothing else where another one reads a value reads what the other does. -/
theorem of_done {q : Scan β} (hp : Reads F p ts a us)
    (hq : ∀ s rest, p s = .done a rest → q s = .done b rest) : Reads F q ts b us := by
  intro s hs
  obtain ⟨r, hpr, hr⟩ := hp s hs
  exact ⟨r, hq s r hpr, hr⟩

theorem commit (hp : Reads F p ts a us) : Reads F (commit p) ts a us :=
  hp.of_done fun _ _ hdone => by rw [Scan.commit, hdone]

theorem expecting (e : Expectation) (hp : Reads F p ts a us) : Reads F (expecting e p) ts a us :=
  hp.of_done fun _ _ hdone => by rw [Scan.expecting, hdone]

theorem either_left (hp : Reads F p ts a us) : Reads F (either p q) ts a us :=
  hp.of_done fun _ _ hdone => by rw [either, hdone]

theorem optional_some (hp : Reads F p ts a us) : Reads F (Scan.optional p) ts (some a) us :=
  hp.of_done fun _ _ hdone => by rw [Scan.optional, hdone]

theorem either_right (hp : Refuses F p ts) (hq : Reads F q ts a us) :
    Reads F (either p q) ts a us := by
  intro s hs
  obtain ⟨_, _, hfail⟩ := hp s hs
  obtain ⟨r, hqr, hr⟩ := hq s hs
  exact ⟨r, by rw [either, hfail, hqr], hr⟩

theorem optional_none (hF : ∀ s, F ts s → Layout ts s) (hp : Refuses F p ts) :
    Reads F (Scan.optional p) ts none ts := by
  intro s hs
  obtain ⟨_, _, hfail⟩ := hp s hs
  exact ⟨s, by rw [Scan.optional, hfail], hF s hs, Nat.le_refl _⟩

theorem many_nil (hp : Refuses Layout p ts) : Reads Layout (many p) ts [] ts := by
  intro s hs
  obtain ⟨_, _, hfail⟩ := hp s hs
  exact ⟨s, by rw [many, hfail], hs, Nat.le_refl _⟩

/-- Where an item takes a token, more items are looked for. -/
theorem many_cons {as : List α} (hp : Reads Layout p ts a us) (hlt : us.length < ts.length)
    (hmany : Reads Layout (many p) us as vs) : Reads Layout (many p) ts (a :: as) vs := by
  intro s hs
  obtain ⟨r, hpr, hr, hlen⟩ := hp s hs
  obtain ⟨r', hmr, hr', hlen'⟩ := hmany r hr
  have hmoved : r.length < s.length := by omega
  refine ⟨r', ?_, hr', by omega⟩
  rw [many, hpr]
  simp only [hmoved, if_true, hmr]

theorem separated_nil {item : Scan α} {separator : Scan Unit} (hitem : Refuses Layout item ts) :
    Reads Layout (separated item separator) ts [] ts :=
  (optional_none (fun _ => id) hitem).bind (pure [])

theorem separated_cons {item : Scan α} {separator : Scan Unit} {as : List α}
    (hitem : Reads Layout item ts a us)
    (hmany : Reads Layout (many (do separator; item)) us as vs) :
    Reads Layout (separated item separator) ts (a :: as) vs :=
  hitem.optional_some.bind (hmany.bind (pure (a :: as)))

/-- After blanks the tokens stand at the front. -/
theorem blanks {next : Unit → Scan α} (h : Reads Flush (next ()) ts a us) :
    Reads Layout (Lexeme.blanks >>= next) ts a us := by
  intro s hs
  obtain ⟨hflush, hle⟩ := hs.flush_skip
  obtain ⟨r, hnext, hr, hlen⟩ := h _ hflush
  exact ⟨r, hnext, hr, by omega⟩

theorem flush (h : Reads Layout p ts a us) : Reads Flush p ts a us :=
  fun s hs => h s hs.layout

end Reads

namespace Refuses

theorem bind (hp : Refuses F p ts) : Refuses F (p >>= f) ts := by
  intro s hs
  obtain ⟨r, e, hfail⟩ := hp s hs
  exact ⟨r, e, by simp only [Bind.bind, hfail]⟩

theorem map (g : α → β) (hp : Refuses F p ts) : Refuses F (g <$> p) ts := hp.bind

theorem either (hp : Refuses F p ts) (hq : Refuses F q ts) : Refuses F (either p q) ts := by
  intro s hs
  obtain ⟨_, _, hfail⟩ := hp s hs
  obtain ⟨r, e, hfail'⟩ := hq s hs
  exact ⟨r, e, by rw [Scan.either, hfail, hfail']⟩

theorem blanks {next : Unit → Scan α} (h : Refuses Flush (next ()) ts) :
    Refuses Layout (Lexeme.blanks >>= next) ts :=
  fun _ hs => h _ hs.flush_skip.1

end Refuses

/-! ## Lexemes -/

/-- No spelling of the first token begins with the character. -/
def Avoids (c : Char) (ts : List Token) : Prop := ∀ t ∈ ts.head?, ¬ t.Begins c

theorem avoids_cons {c : Char} {t : Token} (h : ¬ t.Begins c) (us : List Token) :
    Avoids c (t :: us) := by
  intro u hu
  rwa [← Option.some.inj hu]

theorem avoids_mark {c : Char} {m : Mark} (h : m.chars.head? ≠ some c) (us : List Token) :
    Avoids c (.mark m :: us) :=
  avoids_cons (fun hbegins => h (Token.begins_mark hbegins)) us

theorem avoids_integer {c : Char} (hdigit : c.isDigit = false) (hplus : c ≠ '+') (hminus : c ≠ '-')
    (n : Int64) (us : List Token) : Avoids c (.integer n :: us) := by
  refine avoids_cons (fun hbegins => ?_) us
  rcases Token.begins_integer hbegins with h | h | h
  · rw [hdigit] at h
    cases h
  · exact hplus h
  · exact hminus h

/-- A token whose spellings begin in a class of characters avoids those outside of it. -/
theorem avoids_of_begins {c : Char} {t : Token} {first : Char → Bool}
    (hfirst : ∀ {d}, t.Begins d → first d = true) (h : first c = false) (us : List Token) :
    Avoids c (t :: us) := by
  refine avoids_cons (fun hbegins => ?_) us
  rw [hfirst hbegins] at h
  cases h

theorem avoids_network {c : Char} (h : Lexeme.isNetworkPart c = false) (n : Ipv4.Network)
    (us : List Token) : Avoids c (.network n :: us) :=
  avoids_of_begins Token.begins_network h us

theorem avoids_word {c : Char} (h : Lexeme.isWordStart c = false) (w : String) (us : List Token) :
    Avoids c (.word w :: us) :=
  avoids_of_begins Token.begins_word h us

/-- A scan that takes exactly the first token, in each of its spellings. -/
theorem reads_cons {t : Token}
    (h : ∀ w s, t.Spelled w → Layout us s → p (w ++ s) = .done a s) :
    Reads Flush p (t :: us) a us := by
  intro s hs
  cases hs with
  | @cons _ w _ rest hw hrest =>
    refine ⟨rest, h w rest hw hrest, hrest, ?_⟩
    obtain ⟨c, v, rfl, -⟩ := hw.exists_eq_cons
    simp only [List.length_append, List.length_cons]
    omega

theorem reads_literal (m : Mark) (us : List Token) :
    Reads Flush (literal m.chars) (.mark m :: us) () us := by
  refine reads_cons fun w s hw _ => ?_
  cases hw
  simp [literal]

theorem Avoids.refuses_literal {c : Char} {cs : List Char} (h : Avoids c ts) :
    Refuses Flush (literal (c :: cs)) ts := by
  intro s hs
  cases hs with
  | nil => exact ⟨[], [], rfl⟩
  | @cons t w _ rest hw _ =>
    obtain ⟨d, v, rfl, -⟩ := hw.exists_eq_cons
    have hne : c ≠ d := by
      rintro rfl
      exact h t rfl ⟨v, hw⟩
    exact ⟨_, [], by rw [literal, List.cons_append, List.isPrefixOf, beq_false_of_ne hne]; rfl⟩

namespace Lexeme

theorem reads_char {c : Char} {m : Mark} (hm : m.chars = [c]) (us : List Token) :
    Reads Flush (char c) (.mark m :: us) () us := by
  rw [char, ← hm]
  exact reads_literal m us

theorem reads_symbol {c : Char} {m : Mark} (hm : m.chars = [c]) (us : List Token) :
    Reads Layout (symbol c) (.mark m :: us) () us :=
  Reads.blanks (reads_char hm us)

theorem reads_required {c : Char} {m : Mark} (hm : m.chars = [c]) (us : List Token) :
    Reads Layout (required c) (.mark m :: us) () us :=
  Reads.blanks (reads_char hm us).commit

theorem refuses_symbol {c : Char} (h : Avoids c ts) : Refuses Layout (symbol c) ts :=
  Refuses.blanks h.refuses_literal

theorem reads_word {w : String} (hus : Closes us) : Reads Flush word (.word w :: us) w us := by
  refine reads_cons fun v s hv hs => ?_
  cases hv with
  | word hid =>
    rw [isIdentifier] at hid
    split at hid
    · next c rest hw =>
      rw [Bool.and_eq_true, List.all_eq_true] at hid
      have hends : RunEnds isWordPart s :=
        (hs.runEnds hus).mono fun _ => isInner_of_isWordPart
      have htake := hends.takeWhile_append hid.2
      have hdrop := hends.dropWhile_append hid.2
      rw [hw, List.cons_append]
      simp only [word, reading, hid.1, if_true, htake, hdrop]
      rw [← hw, String.ofList_toList]
    · cases hid

/-- A mark begins no word. -/
theorem refuses_word (hts : Closes ts) : Refuses Flush word ts := by
  intro s hs
  refine ⟨s, [], ?_⟩
  cases s with
  | nil => rfl
  | cons c s =>
    have hinner := hs.layout.runEnds hts c rfl
    have hstart : isWordStart c = false := by
      by_contra hc
      rw [isInner_of_isWordPart (isWordPart_of_isWordStart (Bool.not_eq_false _ ▸ hc))] at hinner
      cases hinner
    simp [word, reading, hstart]

theorem reads_integer {n : Int64} (hus : Closes us) :
    Reads Flush integer (.integer n :: us) n us := by
  refine reads_cons fun w s hw hs => ?_
  cases hw with
  | integer hn =>
    have hread := hn.digits?_append ((hs.runEnds hus).mono fun _ => isInner_of_isDigit)
    simp [integer, reading, hread, Decimal.word?_toInt]

theorem reads_text {s : String} : Reads Flush text (.text s :: us) s us := by
  refine reads_cons fun w rest hw _ => ?_
  cases hw with
  | @text _ v hv =>
    have hread := hv.read?_append rest
    simp [text, reading, hread]

theorem refuses_text (h : Avoids '"' ts) : Refuses Flush text ts := by
  intro s hs
  refine ⟨s, [], ?_⟩
  cases hs with
  | nil => rfl
  | @cons t w _ rest hw _ =>
    obtain ⟨c, v, rfl, -⟩ := hw.exists_eq_cons
    have hne : c ≠ '"' := by
      rintro rfl
      exact h t rfl ⟨v, hw⟩
    simp [text, reading, hne]

/-- What a network scan looks at where a network is laid out. -/
theorem spelled_run {n : Ipv4.Network} {w s : List Char} (hw : n.Spelled w) (hus : Closes us)
    (hs : Layout us s) : Ipv4.Network.ofChars? ((w ++ s).takeWhile isNetworkPart) = some n ∧
      (w ++ s).dropWhile isNetworkPart = s := by
  have hends : RunEnds isNetworkPart s := (hs.runEnds hus).mono fun _ => isInner_of_isNetworkPart
  rw [hends.takeWhile_append hw.isNetworkPart, hends.dropWhile_append hw.isNetworkPart]
  exact ⟨hw.ofChars?_eq, rfl⟩

/-- A network is read without the bits after its length. -/
theorem reads_network {n : Ipv4.Network} (hus : Closes us) :
    Reads Flush (Pattern.ofNetwork <$> network) (.network n :: us) (.within n) us := by
  refine reads_cons fun w s hw hs => ?_
  cases hw with
  | network hn =>
    obtain ⟨hread, hrest⟩ := spelled_run hn hus hs
    simp [Functor.map, Bind.bind, network, reading, hread, hrest]
    rfl

theorem reads_address {a : Ipv4.Address} (hus : Closes us) :
    Reads Flush address (.network (.host a) :: us) a us := by
  refine reads_cons fun w s hw hs => ?_
  generalize ht : Token.network (.host a) = t at hw
  cases hw with
  | @network n _ hn =>
    obtain ⟨hread, hrest⟩ := spelled_run hn hus hs
    have hhost : n.normalize = .host a := (Token.network.inj ht).symm
    have hlength : n.length = 32 := congrArg Ipv4.Network.length hhost
    have haddress : n.base = a := congrArg Ipv4.Network.address hhost
    rw [Ipv4.Network.base_eq_address hlength] at haddress
    simp [address, reading, hread, hrest, hlength, haddress]
  | _ => cases ht

/-- A numeral is no network. -/
theorem ofChars?_numeral_eq_none {n : Int64} (hus : Closes us) {s : List Char}
    (hs : Flush (.integer n :: us) s) :
    Ipv4.Network.ofChars? (s.takeWhile isNetworkPart) = none := by
  cases hs with
  | @cons _ w _ rest hw hrest =>
    cases hw with
    | integer hn =>
      have hends : RunEnds isNetworkPart rest :=
        (hrest.runEnds hus).mono fun _ => isInner_of_isNetworkPart
      have hdigit := fun c => hn.isDigit_of_mem_takeWhile (c := c) hends
      exact Ipv4.Network.ofChars?_eq_none (fun h => absurd (hdigit _ h) (by decide))
        (fun h => absurd (hdigit _ h) (by decide))

theorem refuses_network {n : Int64} (hus : Closes us) :
    Refuses Flush network (.integer n :: us) := by
  intro s hs
  exact ⟨s, [], by simp [network, reading, ofChars?_numeral_eq_none hus hs]⟩

theorem refuses_address {n : Int64} (hus : Closes us) :
    Refuses Flush address (.integer n :: us) := by
  intro s hs
  exact ⟨s, [], by simp [address, reading, ofChars?_numeral_eq_none hus hs]⟩

end Lexeme

end PacketPolicy
