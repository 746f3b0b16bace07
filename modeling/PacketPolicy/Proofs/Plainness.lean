import PacketPolicy.Language.Reader
import PacketPolicy.Proofs.Rendering

/-!
# What scans give

A property of all values that a scan gives, whatever it reads. There is one rule for each
combinator, and for each rule of the grammar one that follows its text. So what is read is
always plain: the names of fields are identifiers and their patterns are canonical.
-/

namespace PacketPolicy

open Scan Lexeme

variable {α β : Type} {P : α → Prop} {Q : β → Prop} {p q : Scan α} {f : α → Scan β}

/-- All values that the scan gives have the property. -/
def Gives (p : Scan α) (P : α → Prop) : Prop := ∀ s a rest, p s = .done a rest → P a

/-! ## Combinators -/

namespace Gives

theorem anything (p : Scan α) : Gives p fun _ => True := fun _ _ _ _ => trivial

theorem pure {a : α} (h : P a) : Gives (pure a) P := by
  rintro s _ rest ⟨⟩
  exact h

theorem mismatch : Gives (mismatch : Scan α) P := nofun

theorem bind (hp : Gives p P) (hf : ∀ a, P a → Gives (f a) Q) : Gives (p >>= f) Q := by
  intro s b rest h
  simp only [Bind.bind] at h
  split at h
  · next a r hpr => exact hf a (hp s a r hpr) r b rest h
  · cases h

/-- What is only skipped may be anything. -/
theorem skip {r : Scan β} (hr : Gives r Q) : Gives (p >>= fun _ => r) Q :=
  (anything p).bind fun _ _ => hr

theorem map {g : α → β} (hp : Gives p P) (hg : ∀ a, P a → Q (g a)) : Gives (g <$> p) Q :=
  hp.bind fun a ha => pure (hg a ha)

theorem commit (hp : Gives p P) : Gives (commit p) P := by
  intro s a rest h
  rw [Scan.commit] at h
  split at h
  · cases h
  · exact hp s a rest h

theorem expecting (e : Expectation) (hp : Gives p P) : Gives (expecting e p) P := by
  intro s a rest h
  rw [Scan.expecting] at h
  split at h
  · cases h
  · exact hp s a rest h

theorem either (hp : Gives p P) (hq : Gives q P) : Gives (either p q) P := by
  intro s a rest h
  rw [Scan.either] at h
  split at h
  · exact hq s a rest h
  · exact hp s a rest h

theorem optional (hp : Gives p P) : Gives (optional p) fun o => ∀ a, o = some a → P a := by
  intro s o rest h
  rw [Scan.optional] at h
  split at h
  · next a r hpr =>
    cases h
    rintro _ ⟨⟩
    exact hp s a _ hpr
  · cases h
    rintro _ ⟨⟩
  · cases h

theorem many (hp : Gives p P) : Gives (many p) fun as => ∀ a ∈ as, P a := by
  intro s as rest h
  fun_induction Scan.many p s generalizing as rest with
  | case1 s a r hpr hmoved bs r' hmany ih =>
    cases h
    exact List.forall_mem_cons.2 ⟨hp s a r hpr, ih bs _ hmany⟩
  | case3 | case4 =>
    cases h
    simp
  | case2 | case5 => cases h

theorem separated {item : Scan α} {separator : Scan Unit} (hitem : Gives item P) :
    Gives (separated item separator) fun as => ∀ a ∈ as, P a := by
  refine hitem.optional.bind fun o ho => ?_
  cases o with
  | none => exact pure (by simp)
  | some first =>
    exact (skip hitem).many.bind fun as has => pure (List.forall_mem_cons.2 ⟨ho first rfl, has⟩)

end Gives

/-! ## Grammar -/

theorem Lexeme.gives_word : Gives word fun w => isIdentifier w = true := by
  intro s w rest h
  simp only [word, reading] at h
  split at h
  · next v r hread =>
    cases h
    split at hread
    · next c cs =>
      split_ifs at hread with hc
      cases hread
      simp only [isIdentifier, String.toList_ofList, hc, Bool.true_and]
      exact List.all_takeWhile
    · cases hread
  · cases h

namespace Grammar

variable {operand policy : Scan Expr}

theorem gives_pattern : Gives pattern Pattern.IsCanonical := by
  have htext : Gives ((Pattern.exactly ∘ .text) <$> text) Pattern.IsCanonical :=
    (Gives.anything _).map fun _ _ => trivial
  have hnetwork : Gives (Pattern.ofNetwork <$> network) Pattern.IsCanonical :=
    (Gives.anything _).map fun n _ => Pattern.isCanonical_ofNetwork n
  have hinteger : Gives ((Pattern.exactly ∘ .int) <$> Lexeme.integer) Pattern.IsCanonical :=
    (Gives.anything _).map fun _ _ => trivial
  exact .skip (.expecting _ (.either htext (.either hnetwork hinteger)))

theorem gives_field {content : Scan α} (h : Gives content P) :
    Gives (field content) fun f => isIdentifier f.1 = true ∧ P f.2 :=
  .skip (gives_word.bind fun _ hw => .skip (h.commit.bind fun _ ha => .pure ⟨hw, ha⟩))

theorem gives_fields {content : Scan α} (h : Gives content P) :
    Gives (fields content) fun fs => ∀ f ∈ fs, isIdentifier f.1 = true ∧ P f.2 :=
  .skip ((gives_field h).separated.bind fun _ hfs => .skip (.pure hfs))

theorem gives_conditional (h : Gives policy Expr.Plain) :
    Gives (conditional policy) Expr.Plain := by
  refine .skip (h.commit.bind fun c hc => .skip (h.commit.bind fun t ht => ?_))
  refine (Gives.skip h.commit).optional.bind fun o ho => .skip (.pure ?_)
  cases o with
  | none => exact ⟨hc, ht⟩
  | some e => exact ⟨hc, ht, ho e rfl⟩

theorem gives_call (h : Gives policy Expr.Plain) (w : String) :
    Gives (call policy w) Expr.Plain := by
  unfold call
  split
  -- `match` and `modify` read fields and `if` reads expressions; other words read neither
  case h_5 => exact (gives_fields gives_pattern).commit.map fun _ hfs => hfs
  case h_6 => exact (gives_fields (.anything _)).commit.map fun _ hfs f hf => (hfs f hf).1
  case h_7 | h_8 | h_9 => exact (Gives.anything _).map fun _ _ => trivial
  case h_10 => exact gives_conditional h
  case h_11 => exact Gives.mismatch.commit
  all_goals exact .pure trivial

theorem gives_primary (h : Gives policy Expr.Plain) : Gives (primary policy) Expr.Plain := by
  have hparenthesised : Gives (parenthesised policy) Expr.Plain :=
    .skip (h.bind fun _ he => .skip (.pure he))
  exact .skip (.expecting _ (.either hparenthesised
    ((Gives.anything word).bind fun w _ => gives_call h w)))

theorem gives_chain (operator : Scan Operator) (h : Gives operand Expr.Plain) :
    Gives (chain operator operand) Expr.Plain := by
  have hitem : Gives (do let op ← operator; return (op, ← Scan.commit operand))
      fun r : Operator × Expr => r.2.Plain :=
    .bind (.anything operator) fun _ _ => h.commit.bind fun _ he => .pure he
  refine h.bind fun first hfirst => hitem.many.bind fun rest hrest => .pure ?_
  clear hitem
  induction rest generalizing first with
  | nil => exact hfirst
  | cons r rest ih =>
    obtain ⟨hr, hrest⟩ := List.forall_mem_cons.1 hrest
    exact ih _ ⟨hfirst, hr⟩ hrest

theorem gives_expression (h : Gives operand Expr.Plain) :
    Gives (expression operand) Expr.Plain :=
  .skip (gives_chain _ (gives_chain _ (gives_chain _ (gives_chain _ h))))

theorem gives_operand (depth : Nat) : Gives (Grammar.operand depth) Expr.Plain := by
  induction depth with
  | zero => exact .mismatch
  | succ depth ih =>
    refine .skip ((Gives.anything _).bind fun sign _ => ?_)
    cases sign with
    | some _ => exact ih.commit.map fun _ he => he
    | none => exact gives_primary (gives_expression ih)

end Grammar

/-- Every expression that is read is plain. -/
theorem Expr.plain_of_ofText {s : String} {e : Expr} (h : ofText s = .ok e) : e.Plain := by
  -- the depth is taken from the text, so no single scan reads all texts
  have hpolicy : ∀ depth, Gives (do
      let e ← Grammar.expression (Grammar.operand depth); blanks; return e) Expr.Plain :=
    fun depth => (Grammar.gives_expression (Grammar.gives_operand depth)).bind fun _ he =>
      .skip (.pure he)
  rw [ofText, ofChars] at h
  split at h
  · next e' hread =>
    cases h
    exact hpolicy _ _ _ _ hread
  · cases h
  · cases h

end PacketPolicy
