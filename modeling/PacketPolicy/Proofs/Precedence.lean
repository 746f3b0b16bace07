import PacketPolicy.Language.Reader
import PacketPolicy.Proofs.Reading
import PacketPolicy.Proofs.Rendering

/-!
# The grammar respects precedence

Each part of the grammar reads the tokens that stand for its results. For a chain of
operators the induction goes over the rendering: its left operand is read with the
operators behind it as what more there is to read, so that they group to the left. The
main theorem: whatever text renders a plain expression, reading the text gives the
expression.
-/

namespace PacketPolicy

open Scan Lexeme

namespace Grammar

variable {α : Type} {ts us vs : List Token} {e : Expr} {k : Nat}

/-! ## Literals and fields -/

theorem reads_integer {n : Int64} (hus : Closes us) :
    Reads Layout integer (.integer n :: us) n us :=
  Reads.blanks ((Lexeme.reads_integer hus).expecting _)

theorem reads_pattern {p : Pattern} (hp : p.IsCanonical) (hus : Closes us) :
    Reads Layout pattern (.ofPattern p :: us) p us := by
  refine Reads.blanks (Reads.expecting _ ?_)
  cases p with
  | within n =>
    refine Reads.either_right (Refuses.map _ (refuses_text ?_)) ?_
    · exact avoids_network rfl n us
    · exact Reads.either_left (reads_network hus)
  | exactly v =>
    cases v with
    | int n =>
      refine Reads.either_right (Refuses.map _ (refuses_text ?_)) ?_
      · exact avoids_integer rfl (by decide) (by decide) n us
      · exact Reads.either_right (Refuses.map _ (refuses_network hus))
          ((Lexeme.reads_integer hus).map _)
    | text s => exact Reads.either_left (reads_text.map _)
    | address a => exact hp.elim

theorem reads_none : Reads Flush (literal ['n', 'o', 'n', 'e']) (.word "none" :: us) () us := by
  refine reads_cons fun w s hw _ => ?_
  cases hw
  rfl

theorem reads_assigned {v : Option Value} (hus : Closes us) :
    Reads Layout assigned (.ofAssigned v :: us) v us := by
  refine Reads.blanks (Reads.expecting _ ?_)
  rcases v with - | n | s | a
  · exact Reads.either_left (reads_none.map _)
  · refine Reads.either_right (Refuses.map _ (Avoids.refuses_literal ?_)) ?_
    · exact avoids_integer rfl (by decide) (by decide) n us
    refine Reads.either_right (Refuses.map _ (refuses_text ?_)) ?_
    · exact avoids_integer rfl (by decide) (by decide) n us
    · exact Reads.either_right (Refuses.map _ (refuses_address hus))
        ((Lexeme.reads_integer hus).map _)
  · refine Reads.either_right (Refuses.map _ (Avoids.refuses_literal ?_)) ?_
    · exact avoids_cons (fun h => absurd (Token.begins_text h) (by decide)) us
    · exact Reads.either_left (reads_text.map _)
  · refine Reads.either_right (Refuses.map _ (Avoids.refuses_literal ?_)) ?_
    · exact avoids_network rfl _ us
    refine Reads.either_right (Refuses.map _ (refuses_text ?_)) ?_
    · exact avoids_network rfl _ us
    · exact Reads.either_left ((reads_address hus).map _)

/-- Behind an argument stands a comma or the closing parenthesis. -/
theorem closes_more (tss : List (List Token)) (us : List Token) :
    Closes (tss.flatMap (.mark .comma :: ·) ++ .mark .closing :: us) := by
  cases tss <;> exact closes_mark _ _

section Fields

variable {content : Scan α} {token : α → Token} {fs : List (String × α)}

theorem reads_field {f : String × α} (h : Reads Layout content (token f.2 :: us) f.2 us) :
    Reads Layout (field content) (Token.field token f ++ us) f us := by
  refine Reads.blanks (Reads.bind (reads_word (closes_mark _ _)) ?_)
  exact (reads_required rfl _).bind (h.commit.bind (Reads.pure _))

/-- The fields behind the first. -/
theorem reads_many_field
    (h : ∀ f ∈ fs, ∀ us, Closes us → Reads Layout content (token f.2 :: us) f.2 us) :
    Reads Layout (many (do symbol ','; field content))
      ((fs.map (Token.field token)).flatMap (.mark .comma :: ·) ++ .mark .closing :: us) fs
      (.mark .closing :: us) := by
  induction fs with
  | nil => exact Reads.many_nil (Refuses.bind (refuses_symbol (avoids_mark (by decide) us)))
  | cons f fs ih =>
    obtain ⟨hf, hfs⟩ := List.forall_mem_cons.1 h
    simp only [List.map_cons, List.flatMap_cons, List.append_assoc, List.cons_append]
    have hfirst := reads_field (hf _ (closes_more (fs.map (Token.field token)) us))
    refine Reads.many_cons ((reads_symbol rfl _).bind hfirst) ?_ (ih hfs)
    simp only [List.length_cons, List.length_append]
    omega

theorem reads_fields
    (h : ∀ f ∈ fs, ∀ us, Closes us → Reads Layout content (token f.2 :: us) f.2 us) :
    Reads Layout (fields content)
      (.mark .opening :: (Token.commas (fs.map (Token.field token)) ++ .mark .closing :: us)) fs
      us := by
  refine (reads_symbol rfl _).bind ?_
  have hall : Reads Layout (separated (field content) (symbol ','))
      (Token.commas (fs.map (Token.field token)) ++ .mark .closing :: us) fs
      (.mark .closing :: us) := by
    cases fs with
    | nil =>
      exact Reads.separated_nil (Refuses.blanks (Refuses.bind (refuses_word (closes_mark _ _))))
    | cons f fs =>
      obtain ⟨hf, hfs⟩ := List.forall_mem_cons.1 h
      simp only [List.map_cons, Token.commas, List.append_assoc]
      exact Reads.separated_cons (reads_field (hf _ (closes_more _ us))) (reads_many_field hfs)
  exact hall.bind ((reads_required rfl _).bind (Reads.pure _))

end Fields

/-- What stands between the parentheses of a call. -/
theorem reads_arguments {content : Scan α} {a : α}
    (h : Reads Layout content (ts ++ .mark .closing :: us) a (.mark .closing :: us)) :
    Reads Layout (arguments content) (.mark .opening :: (ts ++ .mark .closing :: us)) a us :=
  (reads_required rfl _).bind (h.commit.bind
    ((reads_required rfl _).bind (Reads.pure _)))

theorem reads_location (l : Location) (hus : Closes us) :
    Reads Layout location (.integer l.switch :: .mark .comma :: .integer l.port :: us) l us :=
  (reads_integer (closes_mark _ _)).bind ((reads_symbol rfl _).bind
    ((reads_integer hus).bind (Reads.pure _)))

theorem reads_link (l : Link) (hus : Closes us) :
    Reads Layout link (Token.commas (l.numbers.map fun n => [.integer n]) ++ us) l us :=
  (reads_location l.source (closes_mark _ _)).bind ((reads_symbol rfl _).bind
    ((reads_location l.target hus).bind (Reads.pure _)))

/-! ## Levels -/

/-- The operators of a level. -/
def operatorAt : Nat → Scan Operator
  | 0 => operator .union
  | 1 => operator .intersection
  | 2 => operator .sequential
  | _ => additive

/-- Expressions at a place where a level is required. -/
def tier (operand : Scan Expr) (k : Nat) : Scan Expr :=
  if k < 4 then chain (operatorAt k) (tier operand (k + 1)) else operand
termination_by 4 - k

theorem expression_eq (operand : Scan Expr) :
    expression operand = (do blanks; tier operand 0) := by
  simp [expression, tier, operatorAt]

/-- What may stand behind an expression of a level. -/
def Follows (k : Nat) (us : List Token) : Prop :=
  ∀ t ∈ us.head?, t = .mark .closing ∨ t = .mark .comma ∨
    ∃ op, t = .mark (.operator op) ∧ op.level < k

theorem Follows.closes (h : Follows k us) : Closes us := by
  intro t ht
  rcases h t ht with rfl | rfl | ⟨op, rfl, -⟩ <;> exact ⟨_, rfl⟩

theorem Follows.mono {j : Nat} (hjk : j ≤ k) (h : Follows j us) : Follows k us := by
  intro t ht
  rcases h t ht with h | h | ⟨op, h, hop⟩
  · exact .inl h
  · exact .inr (.inl h)
  · exact .inr (.inr ⟨op, h, by omega⟩)

theorem follows_closing (k : Nat) (us : List Token) : Follows k (.mark .closing :: us) := by
  intro t ht
  exact .inl (Option.some.inj ht).symm

theorem follows_comma (k : Nat) (us : List Token) : Follows k (.mark .comma :: us) := by
  intro t ht
  exact .inr (.inl (Option.some.inj ht).symm)

theorem reads_operatorAt (op : Operator) (us : List Token) :
    Reads Layout (operatorAt op.level) (.mark (.operator op) :: us) op us := by
  have hliteral := reads_literal (.operator op) us
  have hoperator : Reads Layout (operator op) (.mark (.operator op) :: us) op us :=
    Reads.blanks (hliteral.bind (Reads.pure _))
  cases op with
  | union => exact hoperator
  | intersection => exact hoperator
  | sequential => exact hoperator
  | parallel => exact Reads.blanks (Reads.either_left (hliteral.map _))
  | difference =>
    refine Reads.blanks (Reads.either_right (Refuses.map _ ?_) (hliteral.map _))
    exact (avoids_mark (by decide) us).refuses_literal

/-- Different operators begin differently. -/
theorem eq_of_head?_symbol_eq {op op' : Operator}
    (h : op.symbol.toList.head? = op'.symbol.toList.head?) : op = op' := by
  revert h
  cases op <;> cases op' <;> decide

theorem Follows.avoids (op : Operator) (h : Follows op.level us) {c : Char}
    (hc : op.symbol.toList.head? = some c) : Avoids c us := by
  intro t ht hbegins
  rcases h t ht with rfl | rfl | ⟨op', rfl, hlt⟩
  · have := Token.begins_mark hbegins
    cases op <;> cases hc <;> contradiction
  · have := Token.begins_mark hbegins
    cases op <;> cases hc <;> contradiction
  · have heq := eq_of_head?_symbol_eq ((Token.begins_mark hbegins).trans hc.symm)
    rw [heq] at hlt
    omega

/-- Behind an expression of a level no operator of that level is read. -/
theorem refuses_operatorAt (hk : k < 4) (h : Follows k us) : Refuses Layout (operatorAt k) us := by
  have hoperator : ∀ {c : Char}, Avoids c us → Refuses Flush (literal [c]) us :=
    fun havoids => havoids.refuses_literal
  match k, hk with
  | 0, _ => exact Refuses.blanks (Refuses.bind (hoperator (Follows.avoids .union h rfl)))
  | 1, _ => exact Refuses.blanks (Refuses.bind (hoperator (Follows.avoids .intersection h rfl)))
  | 2, _ => exact Refuses.blanks (Refuses.bind (Follows.avoids .sequential h rfl).refuses_literal)
  | 3, _ =>
    exact Refuses.blanks (Refuses.either
      (Refuses.map _ (hoperator (Follows.avoids .parallel h rfl)))
      (Refuses.map _ (hoperator (Follows.avoids .difference h rfl))))

/-! ## Chains -/

/-- An operator of a level with its right operand. -/
def step (operand : Scan Expr) (k : Nat) : Scan (Operator × Expr) := do
  let op ← operatorAt k
  return (op, ← commit (tier operand (k + 1)))

/-- Operators with their right operands, applied from the left. -/
def applied (e : Expr) (rest : List (Operator × Expr)) : Expr :=
  rest.foldl (fun acc r => .binary r.1 acc r.2) e

theorem tier_of_lt (operand : Scan Expr) (hk : k < 4) : tier operand k = (do
    let first ← tier operand (k + 1)
    let rest ← many (step operand k)
    return applied first rest) := by
  rw [tier, if_pos hk]
  rfl

theorem tier_four (operand : Scan Expr) : tier operand 4 = operand := by
  rw [tier, if_neg (by decide)]

/-- How a scan of operands reads the tokens of an expression, where a level is required. -/
structure ReadsAt (operand : Scan Expr) (k : Nat) (e : Expr) (ts : List Token) : Prop where
  /-- Nothing more of the level follows. -/
  alone : ∀ {us}, Follows k us → Reads Layout (tier operand k) (ts ++ us) e us
  /-- Operators of the level follow; the expression is the left operand of the first of them. -/
  before : k < 4 → ∀ {us rest vs}, Follows (k + 1) us →
    Reads Layout (many (step operand k)) us rest vs →
    Reads Layout (tier operand k) (ts ++ us) (applied e rest) vs

namespace ReadsAt

variable {operand : Scan Expr}

/-- At a level with operators it is enough to know what is read before operators. -/
theorem of_before (hk : k < 4) (h : ∀ {us rest vs}, Follows (k + 1) us →
    Reads Layout (many (step operand k)) us rest vs →
    Reads Layout (tier operand k) (ts ++ us) (applied e rest) vs) : ReadsAt operand k e ts where
  alone hus :=
    h (hus.mono (Nat.le_succ k)) (Reads.many_nil (Refuses.bind (refuses_operatorAt hk hus)))
  before _ := h

theorem of_operand (h : ∀ {us}, Follows 4 us → Reads Layout operand (ts ++ us) e us) :
    ReadsAt operand 4 e ts where
  alone hus := by
    rw [tier_four]
    exact h hus
  before hlt := absurd hlt (by decide)

theorem loosen (hk : k < 4) (h : ReadsAt operand (k + 1) e ts) : ReadsAt operand k e ts := by
  refine of_before hk fun hus hrest => ?_
  rw [tier_of_lt _ hk]
  exact (h.alone hus).bind (hrest.bind (Reads.pure _))

theorem binary {op : Operator} {l r : Expr} (hl : ReadsAt operand op.level l ts)
    (hr : ReadsAt operand (op.level + 1) r us) :
    ReadsAt operand op.level (.binary op l r) (ts ++ .mark (.operator op) :: us) := by
  refine of_before op.level_lt fun {vs rest ws} hvs hrest => ?_
  have hstep : Reads Layout (step operand op.level) (.mark (.operator op) :: (us ++ vs))
      (op, r) vs :=
    (reads_operatorAt op _).bind ((hr.alone hvs).commit.bind (Reads.pure _))
  -- the operator and its right operand come first of what follows the left operand
  have hmany := Reads.many_cons hstep (by simp) hrest
  have hfollows : Follows (op.level + 1) (.mark (.operator op) :: (us ++ vs)) := by
    intro t ht
    exact .inr (.inr ⟨op, (Option.some.inj ht).symm, Nat.lt_succ_self _⟩)
  rw [List.append_assoc, List.cons_append]
  exact hl.before op.level_lt hfollows hmany

theorem expression (h : ReadsAt operand 0 e ts) (hus : Follows 0 us) :
    Reads Layout (expression operand) (ts ++ us) e us := by
  rw [expression_eq]
  exact Reads.blanks (h.alone hus).flush

end ReadsAt

/-! ## Operands -/

/-- A call or an expression in parentheses. -/
theorem reads_operand_succ {depth : Nat} (hts : Avoids '~' ts)
    (h : Reads Layout (primary (expression (operand depth))) ts e us) :
    Reads Layout (operand (depth + 1)) ts e us := by
  rw [operand]
  exact Reads.blanks ((Reads.optional_none (fun _ => Flush.layout) hts.refuses_literal).bind h)

/-- A word with what belongs to it. -/
theorem readsAt_word {depth : Nat} {w : String} (hdepth : ts.length < depth)
    (h : ∀ depth us, ts.length ≤ depth → Closes us →
      Closes (ts ++ us) ∧ Reads Layout (call (expression (operand depth)) w) (ts ++ us) e us) :
    ReadsAt (operand depth) 4 e (.word w :: ts) := by
  refine ReadsAt.of_operand fun {us} hus => ?_
  obtain ⟨depth, rfl⟩ : ∃ d, depth = d + 1 := ⟨depth - 1, by omega⟩
  obtain ⟨hcloses, hcall⟩ := h depth us (by omega) hus.closes
  refine reads_operand_succ (avoids_word rfl _ _) (Reads.blanks (Reads.expecting _ ?_))
  refine Reads.either_right (Refuses.bind (avoids_word rfl _ _).refuses_literal) ?_
  exact (reads_word hcloses).bind hcall

/-- A word that is all there is to read. -/
theorem readsAt_constant {depth : Nat} {w : String} (hdepth : [Token.word w].length ≤ depth)
    (h : ∀ policy, call policy w = return e) : ReadsAt (operand depth) 4 e [.word w] := by
  refine readsAt_word hdepth fun depth us _ hus => ⟨hus, ?_⟩
  rw [h]
  exact Reads.pure _

/-- A word with arguments. -/
theorem readsAt_call {depth : Nat} {w : String} {tss : List (List Token)}
    (hdepth : (Token.call w tss).length ≤ depth)
    (h : ∀ depth us, (Token.commas tss).length ≤ depth →
      Reads Layout (call (expression (operand depth)) w)
        (.mark .opening :: (Token.commas tss ++ .mark .closing :: us)) e us) :
    ReadsAt (operand depth) 4 e (Token.call w tss) := by
  refine readsAt_word (by simpa [Token.call] using hdepth) fun depth us hlength _ => ?_
  simp only [List.length_cons, List.length_append] at hlength
  rw [List.cons_append, List.append_assoc]
  exact ⟨closes_mark _ _, h depth us (by omega)⟩

theorem readsAt_parenthesised {depth : Nat} (hdepth : ts.length < depth)
    (h : ∀ depth, ts.length ≤ depth → ReadsAt (operand depth) 0 e ts) :
    ReadsAt (operand depth) 4 e (.mark .opening :: (ts ++ [.mark .closing])) := by
  refine ReadsAt.of_operand fun {us} _ => ?_
  obtain ⟨depth, rfl⟩ : ∃ d, depth = d + 1 := ⟨depth - 1, by omega⟩
  rw [List.cons_append, List.append_assoc]
  refine reads_operand_succ (avoids_mark (by decide) _) (Reads.blanks (Reads.expecting _ ?_))
  have hinner := (h depth (by omega)).expression (follows_closing 0 us)
  exact Reads.either_left ((reads_literal .opening _).bind (hinner.bind
    ((reads_required rfl _).bind (Reads.pure _))))

theorem readsAt_not {depth : Nat} (hdepth : ts.length < depth)
    (h : ∀ depth, ts.length ≤ depth → ReadsAt (operand depth) 4 e ts) :
    ReadsAt (operand depth) 4 (.not e) (.mark .tilde :: ts) := by
  refine ReadsAt.of_operand fun {us} hus => ?_
  obtain ⟨depth, rfl⟩ : ∃ d, depth = d + 1 := ⟨depth - 1, by omega⟩
  have hinner := (h depth (by omega)).alone hus
  rw [tier_four] at hinner
  rw [operand]
  exact Reads.blanks ((reads_literal .tilde _).optional_some.bind (hinner.commit.map _))

section Conditional

variable {policy : Scan Expr} {c t : Expr}

theorem reads_conditional_when (hc : ∀ {us}, Follows 0 us → Reads Layout policy (ts ++ us) c us)
    (ht : ∀ {ws}, Follows 0 ws → Reads Layout policy (us ++ ws) t ws) (ws : List Token) :
    Reads Layout (conditional policy)
      (.mark .opening :: (Token.commas [ts, us] ++ .mark .closing :: ws)) (.when c t) ws := by
  simp only [Token.commas, List.flatMap_cons, List.flatMap_nil, List.append_nil, List.append_assoc,
    List.cons_append]
  refine (reads_required rfl _).bind ((hc (follows_comma 0 _)).commit.bind ?_)
  refine (reads_required rfl _).bind ((ht (follows_closing 0 _)).commit.bind ?_)
  have hlast : Refuses Layout (do symbol ','; commit policy) (.mark .closing :: ws) :=
    Refuses.bind (refuses_symbol (avoids_mark (by decide) ws))
  refine (Reads.optional_none (fun _ => id) hlast).bind ?_
  exact (reads_required rfl _).bind (Reads.pure _)

theorem reads_conditional_ite (hc : ∀ {us}, Follows 0 us → Reads Layout policy (ts ++ us) c us)
    (ht : ∀ {ws}, Follows 0 ws → Reads Layout policy (us ++ ws) t ws)
    (he : ∀ {ws}, Follows 0 ws → Reads Layout policy (vs ++ ws) e ws) (ws : List Token) :
    Reads Layout (conditional policy)
      (.mark .opening :: (Token.commas [ts, us, vs] ++ .mark .closing :: ws)) (.ite c t e) ws := by
  simp only [Token.commas, List.flatMap_cons, List.flatMap_nil, List.append_nil, List.append_assoc,
    List.cons_append]
  refine (reads_required rfl _).bind ((hc (follows_comma 0 _)).commit.bind ?_)
  refine (reads_required rfl _).bind ((ht (follows_comma 0 _)).commit.bind ?_)
  have hlast : Reads Layout (do symbol ','; commit policy)
      (.mark .comma :: (vs ++ .mark .closing :: ws)) e (.mark .closing :: ws) :=
    (reads_symbol rfl _).bind (he (follows_closing 0 _)).commit
  refine hlast.optional_some.bind ?_
  exact (reads_required rfl _).bind (Reads.pure _)

end Conditional

/-! ## Expressions -/

/-- The tokens that stand for an expression are read as that expression, whatever may stand behind
them. No nesting is deeper than the number of tokens. -/
theorem readsAt_of_renders (h : e.Renders k ts) (he : e.Plain) {depth : Nat}
    (hdepth : ts.length ≤ depth) : ReadsAt (operand depth) k e ts := by
  -- signs, parentheses and calls take one off the depth, and one token at least
  induction h generalizing depth with
  | identity => exact readsAt_constant hdepth fun _ => rfl
  | passthrough => exact readsAt_constant hdepth fun _ => rfl
  | drop => exact readsAt_constant hdepth fun _ => rfl
  | controller => exact readsAt_constant hdepth fun _ => rfl
  | test fs =>
    refine readsAt_call hdepth fun depth us _ => Reads.map _ (Reads.commit (reads_fields ?_))
    exact fun f hf us hus => reads_pattern (he f hf).2 hus
  | modify fs =>
    refine readsAt_call hdepth fun depth us _ => Reads.map _ (Reads.commit (reads_fields ?_))
    exact fun f hf us hus => reads_assigned hus
  | forward port =>
    refine readsAt_call hdepth fun depth us _ => Reads.map _ (reads_arguments ?_)
    exact reads_integer (closes_mark _ _)
  | exclusive port =>
    refine readsAt_call hdepth fun depth us _ => Reads.map _ (reads_arguments ?_)
    exact reads_integer (closes_mark _ _)
  | link l =>
    refine readsAt_call hdepth fun depth us _ => Reads.map _ (reads_arguments ?_)
    exact reads_link l (closes_mark _ _)
  | @when c t ts us _ _ ihc iht =>
    refine readsAt_call hdepth fun depth ws hlength => ?_
    simp only [Token.commas, List.flatMap_cons, List.flatMap_nil, List.length_append,
      List.length_cons, List.length_nil] at hlength
    exact reads_conditional_when (ihc he.1 (by omega)).expression
      (iht he.2 (by omega)).expression ws
  | @ite c t e ts us vs _ _ _ ihc iht ihe =>
    refine readsAt_call hdepth fun depth ws hlength => ?_
    simp only [Token.commas, List.flatMap_cons, List.flatMap_nil, List.length_append,
      List.length_cons, List.length_nil] at hlength
    exact reads_conditional_ite (ihc he.1 (by omega)).expression
      (iht he.2.1 (by omega)).expression (ihe he.2.2 (by omega)).expression ws
  | not _ ih => exact readsAt_not hdepth fun _ hlength => ih he hlength
  | binary op _ _ ihl ihr =>
    simp only [List.length_append, List.length_cons] at hdepth
    exact ReadsAt.binary (ihl he.1 (by omega)) (ihr he.2 (by omega))
  | parenthesised _ ih =>
    simp only [List.length_append, List.length_cons] at hdepth
    exact readsAt_parenthesised (by omega) fun _ hlength => ih he hlength
  | loosen h ih => exact ReadsAt.loosen h.le_four (ih he hdepth)

end Grammar

/-- What is laid out from tokens that stand for a plain expression is read as that expression. -/
theorem Expr.ofChars_of_layout {e : Expr} {ts : List Token} {s : List Char} (h : e.Renders 0 ts)
    (he : e.Plain) (hs : Layout ts s) : ofChars s = .ok e := by
  have hdepth : ts.length ≤ s.length + 1 := hs.length_le.trans (Nat.le_succ _)
  have hnil : Grammar.Follows 0 [] := fun t ht => by cases ht
  have hreads := (Grammar.readsAt_of_renders h he hdepth).expression hnil
  rw [List.append_nil] at hreads
  obtain ⟨rest, hdone, hrest, -⟩ := hreads s hs
  cases hrest with
  | nil hgap =>
    have hpolicy : Grammar.policy s = .done e [] := by
      simp only [Grammar.policy, Bind.bind, hdone, blanks, hgap.skip_eq_nil]
      rfl
    rw [ofChars, hpolicy]

/-- Every plain expression can be written, and whatever text renders it is read as this
expression: with the operators grouped as their levels and the parentheses say, with the fields
in their order, and with all fields of a name. -/
theorem Expr.ofText_eq_ok_of_rendering {e : Expr} (he : e.Plain) :
    (∃ text, e.Rendering 0 text) ∧ ∀ text, e.Rendering 0 text → ofText text = .ok e := by
  constructor
  · obtain ⟨ts, hrenders, hwritable⟩ := exists_renders he
    obtain ⟨s, hs⟩ := exists_layout hwritable
    refine ⟨String.ofList s, ts, hrenders.of_le (Nat.zero_le 4), ?_⟩
    rwa [String.toList_ofList]
  · rintro text ⟨ts, hrenders, hlayout⟩
    exact ofChars_of_layout hrenders he hlayout

/-- Signs, parentheses, a comment and a repeated field. -/
theorem Expr.ofText_eq_ok_of_rendering_commented :
    let e : Expr := .binary .union
      (.binary .difference (.not .drop) (.binary .difference .drop .identity))
      (.test [("a", .exactly (.int 1)), ("a", .exactly (.text "x"))])
    e.Plain ∧ e.Rendering 0 "~drop-(drop - passthrough) # no\n|match(a=1,a=\"x\")" ∧
      ofText "~drop-(drop - passthrough) # no\n|match(a=1,a=\"x\")" = .ok e := by
  intro e
  have hplain : e.Plain := by
    simp only [e, Plain, List.forall_mem_cons]
    exact ⟨⟨trivial, trivial, trivial⟩, ⟨rfl, trivial⟩, ⟨rfl, trivial⟩, by simp⟩
  have hinner : Renders 3 (.binary .difference .drop .identity)
      [.word "drop", .mark (.operator .difference), .word "passthrough"] :=
    .binary .difference Renders.drop.loosen .passthrough
  have houter : Renders 3 (.binary .difference (.not .drop) (.binary .difference .drop .identity))
      [.mark .tilde, .word "drop", .mark (.operator .difference), .mark .opening, .word "drop",
        .mark (.operator .difference), .word "passthrough", .mark .closing] :=
    .binary .difference (Renders.not .drop).loosen (.parenthesised (hinner.of_le (by decide)))
  have hrenders : Renders 0 e ([.mark .tilde, .word "drop", .mark (.operator .difference),
      .mark .opening, .word "drop", .mark (.operator .difference), .word "passthrough",
      .mark .closing, .mark (.operator .union), .word "match", .mark .opening, .word "a",
      .mark .equals, .integer 1, .mark .comma, .word "a", .mark .equals, .text "x",
      .mark .closing]) :=
    .binary .union (houter.of_le (by decide)) ((Renders.test _).of_le (by decide))
  have hspace : Gap [' '] := .blank rfl .nil
  have hcomment : Gap (' ' :: '#' :: [' ', 'n', 'o'] ++ ['\n']) :=
    .blank rfl (.comment (by simp) .nil)
  have hlayout : Layout _ _ :=
    .token (.mark .tilde) <| .token (.word (w := "drop") rfl) <|
    .token (.mark (.operator .difference)) <| .token (.mark .opening) <|
    .token (.word (w := "drop") rfl) <| .gap_append hspace <|
    .token (.mark (.operator .difference)) <| .gap_append hspace <|
    .token (.word (w := "passthrough") rfl) <| .token (.mark .closing) <| .gap_append hcomment <|
    .token (.mark (.operator .union)) <| .token (.word (w := "match") rfl) <|
    .token (.mark .opening) <| .token (.word (w := "a") rfl) <| .token (.mark .equals) <|
    .token (.integer (n := 1) (.positive (n := 1) Nat.one_pos)) <| .token (.mark .comma) <|
    .token (.word (w := "a") rfl) <| .token (.mark .equals) <|
    .token (.text (s := "x") (Quoted.written_escape ['x'])) <| .one (.mark .closing)
  have hread : ∀ text, e.Rendering 0 text → e.Rendering 0 text ∧ ofText text = .ok e :=
    fun text h => ⟨h, (ofText_eq_ok_of_rendering hplain).2 text h⟩
  exact ⟨hplain, hread _ ⟨_, hrenders, hlayout⟩⟩

end PacketPolicy
