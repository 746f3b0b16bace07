import PacketPolicy.Proofs.Layout

/-!
# Renderings of expressions

The sequences of tokens that stand for an expression. An expression renders at a level:
an operator may stand unparenthesised where its level is at least the required one, and
parentheses may be added anywhere. The arguments of a call and whole texts require level
0, operands of `~` level 4. The left operand of a binary operator may be of the same
level, the right one has to be of a higher level, so that operators group to the left.
-/

namespace PacketPolicy

namespace Token

/-- Token sequences with commas between them. -/
def commas : List (List Token) → List Token
  | [] => []
  | ts :: tss => ts ++ tss.flatMap (.mark .comma :: ·)

/-- A word with arguments. -/
def call (w : String) (arguments : List (List Token)) : List Token :=
  .word w :: .mark .opening :: (commas arguments ++ [.mark .closing])

/-- One `name=content` of a field list. -/
def field {α : Type} (content : α → Token) (f : String × α) : List Token :=
  [.word f.1, .mark .equals, content f.2]

def ofPattern : Pattern → Token
  | .exactly (.int n) => .integer n
  | .exactly (.text s) => .text s
  | .exactly (.address a) => .network (.host a)
  | .within n => .network n

/-- No value is written as a word. -/
def ofAssigned : Option Value → Token
  | none => .word "none"
  | some (.int n) => .integer n
  | some (.text s) => .text s
  | some (.address a) => .network (.host a)

end Token

theorem Operator.level_lt (op : Operator) : op.level < 4 := by
  cases op <;> decide

namespace Expr

open Token (call field)

/-- The tokens stand for the expression where the given level is required. -/
inductive Renders : Nat → Expr → List Token → Prop
  | identity : Renders 4 .identity [.word "identity"]
  | passthrough : Renders 4 .identity [.word "passthrough"]
  | drop : Renders 4 .drop [.word "drop"]
  | controller : Renders 4 .controller [.word "controller"]
  | test (fields) : Renders 4 (.test fields) (call "match" (fields.map (field .ofPattern)))
  | modify (fields) : Renders 4 (.modify fields) (call "modify" (fields.map (field .ofAssigned)))
  | forward (port) : Renders 4 (.forward port) (call "fwd" [[.integer port]])
  | exclusive (port) : Renders 4 (.exclusive port) (call "xfwd" [[.integer port]])
  | link (l : Link) : Renders 4 (.link l) (call "link" (l.numbers.map fun n => [.integer n]))
  | when {c t ts us} : Renders 0 c ts → Renders 0 t us → Renders 4 (.when c t) (call "if" [ts, us])
  | ite {c t e ts us vs} : Renders 0 c ts → Renders 0 t us → Renders 0 e vs →
      Renders 4 (.ite c t e) (call "if" [ts, us, vs])
  | not {e ts} : Renders 4 e ts → Renders 4 (.not e) (.mark .tilde :: ts)
  | binary (op) {l r ts us} : Renders op.level l ts → Renders (op.level + 1) r us →
      Renders op.level (.binary op l r) (ts ++ .mark (.operator op) :: us)
  | parenthesised {e ts} : Renders 0 e ts →
      Renders 4 e (.mark .opening :: (ts ++ [.mark .closing]))
  | loosen {k e ts} : Renders (k + 1) e ts → Renders k e ts

/-- The text is laid out from tokens that stand for the expression. -/
def Rendering (e : Expr) (k : Nat) (text : String) : Prop :=
  ∃ ts, Renders k e ts ∧ Layout ts text.toList

/-- All field names are identifiers, and all patterns are canonical. -/
def Plain : Expr → Prop
  | .test fields => ∀ f ∈ fields, Lexeme.isIdentifier f.1 = true ∧ f.2.IsCanonical
  | .modify fields => ∀ f ∈ fields, Lexeme.isIdentifier f.1 = true
  | .when c t => c.Plain ∧ t.Plain
  | .ite c t e => c.Plain ∧ t.Plain ∧ e.Plain
  | .not e => e.Plain
  | .binary _ l r => l.Plain ∧ r.Plain
  | _ => True

theorem Renders.le_four {k : Nat} {e : Expr} {ts : List Token} (h : Renders k e ts) : k ≤ 4 := by
  induction h with
  | binary => exact Nat.le_of_lt (Operator.level_lt _)
  | loosen => omega
  | _ => exact Nat.le_refl 4

/-- What stands where a level is required may stand where a lower one is. -/
theorem Renders.of_le {j k : Nat} (hjk : j ≤ k) {e : Expr} {ts : List Token} (h : Renders k e ts) :
    Renders j e ts := by
  induction k, hjk using Nat.le_induction with
  | base => exact h
  | succ k _ ih => exact ih h.loosen

end Expr

/-! ## Every plain expression has a rendering -/

namespace Token

/-- The token can be written. -/
def Writable (t : Token) : Prop := ∃ w, t.Spelled w

theorem writable_word {w : String} (h : Lexeme.isIdentifier w = true) : (word w).Writable :=
  ⟨_, .word h⟩

theorem writable_integer (n : Int64) : (integer n).Writable :=
  ⟨_, .integer (Decimal.numeral_ofInt n.toInt)⟩

theorem writable_text (s : String) : (text s).Writable :=
  ⟨_, .text (Quoted.written_escape s.toList)⟩

theorem writable_mark (m : Mark) : (mark m).Writable := ⟨_, .mark m⟩

theorem writable_network {n : Ipv4.Network} (h : n.IsNormal) : (network n).Writable := by
  have hspelled := Spelled.network (Ipv4.Network.Spelled.withLength n 0)
  rw [h.normalize_eq] at hspelled
  exact ⟨_, hspelled⟩

theorem writable_host (a : Ipv4.Address) : (network (.host a)).Writable :=
  writable_network (Ipv4.Network.base_eq_address rfl)

theorem writable_ofPattern {p : Pattern} (h : p.IsCanonical) : (ofPattern p).Writable := by
  cases p with
  | within n => exact writable_network h
  | exactly v =>
    cases v with
    | int n => exact writable_integer n
    | text s => exact writable_text s
    | address a => exact h.elim

theorem writable_ofAssigned (v : Option Value) : (ofAssigned v).Writable := by
  rcases v with - | n | s | a
  · exact writable_word (by decide)
  · exact writable_integer n
  · exact writable_text s
  · exact writable_host a

theorem mem_commas {tss : List (List Token)} {t : Token} (h : t ∈ commas tss) :
    t = .mark .comma ∨ ∃ ts ∈ tss, t ∈ ts := by
  cases tss with
  | nil => cases h
  | cons ts tss =>
    simp only [commas, List.mem_append, List.mem_flatMap, List.mem_cons] at h
    rcases h with h | ⟨us, hus, rfl | h⟩
    · exact .inr ⟨ts, List.mem_cons_self, h⟩
    · exact .inl rfl
    · exact .inr ⟨us, List.mem_cons_of_mem _ hus, h⟩

theorem writable_call {w : String} (hw : Lexeme.isIdentifier w = true) {tss : List (List Token)}
    (h : ∀ ts ∈ tss, ∀ t ∈ ts, t.Writable) : ∀ t ∈ call w tss, t.Writable := by
  intro t ht
  simp only [call, List.mem_cons, List.mem_append, List.not_mem_nil, or_false] at ht
  rcases ht with rfl | rfl | ht | rfl
  · exact writable_word hw
  · exact writable_mark _
  · rcases mem_commas ht with rfl | ⟨ts, hts, ht⟩
    · exact writable_mark _
    · exact h ts hts t ht
  · exact writable_mark _

theorem writable_fields {α : Type} {content : α → Token} {fields : List (String × α)}
    (h : ∀ f ∈ fields, Lexeme.isIdentifier f.1 = true ∧ (content f.2).Writable) :
    ∀ ts ∈ fields.map (field content), ∀ t ∈ ts, t.Writable := by
  intro ts hts t ht
  obtain ⟨f, hf, rfl⟩ := List.mem_map.1 hts
  simp only [field, List.mem_cons, List.not_mem_nil, or_false] at ht
  rcases ht with rfl | rfl | rfl
  · exact writable_word (h f hf).1
  · exact writable_mark _
  · exact (h f hf).2

end Token

theorem exists_layout {ts : List Token} (h : ∀ t ∈ ts, t.Writable) : ∃ s, Layout ts s := by
  induction ts with
  | nil => exact ⟨[], .nil .nil⟩
  | cons t ts ih =>
    obtain ⟨⟨w, hw⟩, hts⟩ := List.forall_mem_cons.1 h
    obtain ⟨s, hs⟩ := ih hts
    exact ⟨_, .cons .nil hw hs⟩

theorem Expr.exists_renders {e : Expr} (he : e.Plain) :
    ∃ ts, Renders 4 e ts ∧ ∀ t ∈ ts, t.Writable := by
  have hword : ∀ w : String, Lexeme.isIdentifier w = true → ∀ t ∈ [Token.word w], t.Writable := by
    intro w hw t ht
    rw [List.mem_singleton.1 ht]
    exact Token.writable_word hw
  have hnumber : ∀ n : Int64, ∀ t ∈ [Token.integer n], t.Writable := by
    intro n t ht
    rw [List.mem_singleton.1 ht]
    exact Token.writable_integer n
  induction e with
  | identity => exact ⟨_, .identity, hword _ (by decide)⟩
  | drop => exact ⟨_, .drop, hword _ (by decide)⟩
  | controller => exact ⟨_, .controller, hword _ (by decide)⟩
  | test fields =>
    refine ⟨_, .test fields, Token.writable_call (by decide) (Token.writable_fields fun f hf => ?_)⟩
    exact ⟨(he f hf).1, Token.writable_ofPattern (he f hf).2⟩
  | modify fields =>
    refine ⟨_, .modify fields, Token.writable_call (by decide)
      (Token.writable_fields fun f hf => ?_)⟩
    exact ⟨he f hf, Token.writable_ofAssigned f.2⟩
  | forward port =>
    exact ⟨_, .forward port, Token.writable_call (by decide) (by simpa using hnumber port)⟩
  | exclusive port =>
    exact ⟨_, .exclusive port, Token.writable_call (by decide) (by simpa using hnumber port)⟩
  | link l =>
    refine ⟨_, .link l, Token.writable_call (by decide) fun ts hts => ?_⟩
    obtain ⟨n, -, rfl⟩ := List.mem_map.1 hts
    exact hnumber n
  | when c t ihc iht =>
    obtain ⟨ts, hts, hws⟩ := ihc he.1
    obtain ⟨us, hus, hwu⟩ := iht he.2
    refine ⟨_, .when (hts.of_le (by decide)) (hus.of_le (by decide)),
      Token.writable_call (by decide) ?_⟩
    simpa only [List.forall_mem_cons] using ⟨hws, hwu, by simp⟩
  | ite c t e ihc iht ihe =>
    obtain ⟨ts, hts, hws⟩ := ihc he.1
    obtain ⟨us, hus, hwu⟩ := iht he.2.1
    obtain ⟨vs, hvs, hwv⟩ := ihe he.2.2
    refine ⟨_, .ite (hts.of_le (by decide)) (hus.of_le (by decide)) (hvs.of_le (by decide)),
      Token.writable_call (by decide) ?_⟩
    simpa only [List.forall_mem_cons] using ⟨hws, hwu, hwv, by simp⟩
  | not e ih =>
    obtain ⟨ts, hts, hws⟩ := ih he
    exact ⟨_, .not hts, List.forall_mem_cons.2 ⟨Token.writable_mark _, hws⟩⟩
  | binary op l r ihl ihr =>
    obtain ⟨ts, hts, hws⟩ := ihl he.1
    obtain ⟨us, hus, hwu⟩ := ihr he.2
    have hbinary : Renders 0 (.binary op l r) (ts ++ .mark (.operator op) :: us) :=
      (Renders.binary op (hts.of_le op.level_lt.le) (hus.of_le op.level_lt)).of_le (Nat.zero_le _)
    refine ⟨_, .parenthesised hbinary, ?_⟩
    simp only [List.forall_mem_cons, List.forall_mem_append]
    exact ⟨Token.writable_mark _, ⟨hws, Token.writable_mark _, hwu⟩, Token.writable_mark _,
      by simp⟩

end PacketPolicy
