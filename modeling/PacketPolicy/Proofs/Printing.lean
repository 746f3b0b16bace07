import PacketPolicy.Language.Reader
import PacketPolicy.Proofs.Rendering

/-!
# Printed policies

The written form of a policy renders an expression. Operands are parenthesised unless
they are of the tightest level, so lists of operands group to the left as they are
written. Lists of one operand are written as that operand, and empty lists as what they
come to.
-/

namespace PacketPolicy

/-! ## Literals -/

namespace Pattern

/-- The canonical pattern of the same values. -/
def canonical : Pattern → Pattern
  | .exactly v => .ofValue v
  | .within n => .ofNetwork n

theorem isCanonical_canonical (p : Pattern) : p.canonical.IsCanonical := by
  cases p with
  | within n => exact isCanonical_ofNetwork n
  | exactly v =>
    cases v with
    | int n => trivial
    | text s => trivial
    | address a => exact Ipv4.Network.base_eq_address rfl

theorem IsCanonical.canonical_eq {p : Pattern} (h : p.IsCanonical) : p.canonical = p := by
  cases p with
  | within n => exact congrArg within h.normalize_eq
  | exactly v =>
    cases v with
    | int n => rfl
    | text s => rfl
    | address a => exact h.elim

end Pattern

namespace Token

theorem spelled_address (a : Ipv4.Address) : Spelled (.network (.host a)) a.render.toList := by
  have hhost : (Ipv4.Network.host a).IsNormal := Ipv4.Network.base_eq_address rfl
  have hspelled := Spelled.network (Ipv4.Network.Spelled.alone a)
  rwa [hhost.normalize_eq, ← String.toList_ofList (l := a.chars)] at hspelled

theorem spelled_integer (n : Int64) : Spelled (.integer n) (Decimal.text n.toInt).toList := by
  rw [Decimal.text, String.toList_ofList]
  exact .integer (Decimal.numeral_ofInt n.toInt)

theorem spelled_text (s : String) : Spelled (.text s) (Quoted.text s).toList := by
  rw [Quoted.text, String.toList_ofList]
  exact .text (Quoted.written_escape s.toList)

theorem spelled_pattern (p : Pattern) : Spelled (.ofPattern p.canonical) p.render.toList := by
  cases p with
  | exactly v =>
    cases v with
    | int n => exact spelled_integer n
    | text s => exact spelled_text s
    | address a => exact spelled_address a
  | within n =>
    rw [Pattern.render]
    split
    · next hlength =>
      have hhost : n.normalize = .host n.base := by
        cases n
        cases hlength
        rfl
      rw [Pattern.canonical, Pattern.ofNetwork, hhost]
      exact spelled_address n.base
    · have hspelled := Spelled.network (Ipv4.Network.Spelled.withLength n.normalize 0)
      rw [n.isNormal_normalize.normalize_eq] at hspelled
      rw [Ipv4.Network.render, String.toList_ofList]
      exact hspelled

theorem spelled_assigned (v : Option Value) :
    Spelled (.ofAssigned v) (v.elim "none" Value.render).toList := by
  rcases v with - | n | s | a
  · exact .word (by decide)
  · exact spelled_integer n
  · exact spelled_text s
  · exact spelled_address a

end Token

/-! ## Calls -/

namespace Layout

theorem intercalate {tss : List (List Token)} {texts : List String}
    (h : List.Forall₂ (fun ts text => Layout ts text.toList) tss texts) :
    Layout (Token.commas tss) (", ".intercalate texts).toList := by
  induction h with
  | nil => exact .nil .nil
  | cons hfirst hrest ih =>
    cases hrest with
    | nil => simpa [Token.commas] using hfirst
    | cons =>
      have hspace : Gap [' '] := .blank rfl .nil
      rw [String.intercalate_cons_cons, String.toList_append, String.toList_append,
        List.append_assoc]
      have hcomma := Layout.token (.mark .comma) (.gap_append hspace ih)
      exact hfirst.append hcomma

theorem call (w opening : String) (hw : Lexeme.isIdentifier w = true)
    (hopening : opening.toList = w.toList ++ ['(']) {tss : List (List Token)} {texts : List String}
    (h : List.Forall₂ (fun ts text => Layout ts text.toList) tss texts) :
    Layout (Token.call w tss) (opening ++ ", ".intercalate texts ++ ")").toList := by
  simp only [String.toList_append, hopening, List.append_assoc]
  exact .token (.word hw) (.token (.mark .opening) ((intercalate h).append (.one (.mark .closing))))

theorem fields {α : Type} {content : α → Token} {text : α → String} {fs : List (String × α)}
    (hfs : ∀ f ∈ fs, Lexeme.isIdentifier f.1 = true)
    (htext : ∀ a, (content a).Spelled (text a).toList) :
    List.Forall₂ (fun ts t => Layout ts t.toList) (fs.map (Token.field content))
      (fs.map fun f => f.1 ++ "=" ++ text f.2) := by
  rw [List.forall₂_map_left_iff, List.forall₂_map_right_iff, List.forall₂_same]
  intro f hf
  simp only [String.toList_append, List.append_assoc]
  exact .token (.word (hfs f hf)) (.token (.mark .equals) (.one (htext f.2)))

end Layout

/-! ## Operators -/

namespace Expr

/-- Operands with an operator between them. -/
def joined (op : Operator) (none : Expr) : List Expr → Expr
  | [] => none
  | e :: es => es.foldl (.binary op) e

/-- What holds of no operands and of one holds of all, if it is kept from each operand to the
next. -/
theorem joined_induction {α : Type} {op : Operator} {none : Expr} {f : α → Expr} {as : List α}
    {M : Expr → List α → Prop} (hnil : as = [] → M none [])
    (hone : ∀ a ∈ as, M (f a) [a])
    (hsnoc : ∀ {l bs a}, bs ≠ [] → bs ++ [a] <+: as → M l bs → M (.binary op l (f a)) (bs ++ [a])) :
    M (joined op none (as.map f)) as := by
  have hfold : ∀ (rest bs : List α) (l : Expr), bs ≠ [] → bs ++ rest = as → M l bs →
      M ((rest.map f).foldl (.binary op) l) as := by
    intro rest
    induction rest with
    | nil =>
      intro bs l _ has hl
      rw [← has, List.append_nil]
      exact hl
    | cons a rest ih =>
      intro bs l hbs has hl
      have hinitial : bs ++ [a] <+: as := ⟨rest, by simpa using has⟩
      exact ih (bs ++ [a]) _ (by simp) (by simpa using has) (hsnoc hbs hinitial hl)
  cases as with
  | nil => exact hnil rfl
  | cons a as => exact hfold as [a] (f a) (by simp) rfl (hone a List.mem_cons_self)

namespace Rendering

variable {e l r : Expr} {t u : String} {k : Nat}

theorem of_le {j : Nat} (hjk : j ≤ k) (h : e.Rendering k t) : e.Rendering j t := by
  obtain ⟨ts, hts, ht⟩ := h
  exact ⟨ts, hts.of_le hjk, ht⟩

theorem parenthesised (h : e.Rendering 0 t) : e.Rendering 4 ("(" ++ t ++ ")") := by
  obtain ⟨ts, hts, ht⟩ := h
  refine ⟨_, .parenthesised hts, ?_⟩
  simp only [String.toList_append, List.append_assoc]
  exact .token (.mark .opening) (ht.append (.one (.mark .closing)))

theorem not (h : e.Rendering 4 t) : (Expr.not e).Rendering 4 ("~" ++ t) := by
  obtain ⟨ts, hts, ht⟩ := h
  refine ⟨_, .not hts, ?_⟩
  rw [String.toList_append]
  exact .token (.mark .tilde) ht

theorem binary {op : Operator} (hl : l.Rendering op.level t) (hr : r.Rendering 4 u) :
    (Expr.binary op l r).Rendering op.level (t ++ (" " ++ op.symbol ++ " ") ++ u) := by
  obtain ⟨ts, hts, ht⟩ := hl
  obtain ⟨us, hus, hu⟩ := hr
  refine ⟨_, .binary op hts (hus.of_le op.level_lt), ?_⟩
  have hspace : Gap [' '] := .blank rfl .nil
  simp only [String.toList_append, List.append_assoc]
  exact ht.append (.gap_append hspace (.token (.mark (.operator op)) (.gap_append hspace hu)))

theorem constant {w : String} (hw : Lexeme.isIdentifier w = true) (h : Renders 4 e [.word w]) :
    e.Rendering 4 w :=
  ⟨_, h, .one (.word hw)⟩

end Rendering

end Expr

/-! ## Policies -/

namespace Policy

mutual

/-- The expression that is written for a policy. There is none for sinks and handles; `drop`
stands in for them. -/
def expr : Policy → Expr
  | .identity => .identity
  | .drop => .drop
  | .test m => .test (m.fields.entries.map fun f => (f.1, f.2.canonical))
  | .modify m => .modify m.fields.entries
  | .controller => .controller
  | .query _ => .drop
  | .negate p => .not (expr p)
  | .parallel ps => .joined .parallel .drop (exprs ps)
  | .union ps => .joined .union .drop (exprs ps)
  | .sequential ps => .joined .sequential .identity (exprs ps)
  | .intersection ps => .joined .intersection .identity (exprs ps)
  | .difference p q => .binary .difference (expr p) (expr q)
  | .conditional c p q => .ite (expr c) (expr p) (expr q)
  | .forward port => .forward port
  | .exclusive port => .exclusive port
  | .link l => .link l
  | .dynamic _ => .drop

def exprs : List Policy → List Expr
  | [] => []
  | p :: ps => expr p :: exprs ps

end

theorem exprs_eq_map (ps : List Policy) : exprs ps = ps.map expr := by
  induction ps with
  | nil => rfl
  | cons p ps ih => simp [exprs, ih]

/-- The policy can be written so that it is read back: it has no sinks and no handles, its header
names are identifiers, no match and no modification is empty, and where the language requires
filters there are filters. -/
inductive Printable : Policy → Prop
  | identity : Printable .identity
  | drop : Printable .drop
  | test {m} : m.fields.isEmpty = false →
      (∀ f ∈ m.fields.entries, Lexeme.isIdentifier f.1 = true) → Printable (.test m)
  | modify {m} : m.fields.isEmpty = false →
      (∀ f ∈ m.fields.entries, Lexeme.isIdentifier f.1 = true) → Printable (.modify m)
  | controller : Printable .controller
  | negate {p} : p.isFilter = true → Printable p → Printable (.negate p)
  | parallel {ps} : (∀ p ∈ ps, Printable p) → Printable (.parallel ps)
  | union {ps} : (∀ p ∈ ps, p.isFilter = true) → (∀ p ∈ ps, Printable p) → Printable (.union ps)
  | sequential {ps} : (∀ p ∈ ps, Printable p) → Printable (.sequential ps)
  | intersection {ps} : (∀ p ∈ ps, p.isFilter = true) → (∀ p ∈ ps, Printable p) →
      Printable (.intersection ps)
  | difference {p q} : p.isFilter = true → q.isFilter = true → Printable p → Printable q →
      Printable (.difference p q)
  | conditional {c p q} : c.isFilter = true → Printable c → Printable p → Printable q →
      Printable (.conditional c p q)
  | forward (port) : Printable (.forward port)
  | exclusive (port) : Printable (.exclusive port)
  | link (l) : Printable (.link l)

theorem Printable.plain {p : Policy} (h : Printable p) : p.expr.Plain := by
  have hjoined : ∀ {op none} {ps : List Policy}, none.Plain → (∀ p ∈ ps, p.expr.Plain) →
      (Expr.joined op none (exprs ps)).Plain := by
    intro op none ps hnone hps
    rw [exprs_eq_map]
    exact Expr.joined_induction (M := fun e _ => e.Plain) (fun _ => hnone) hps
      fun _ hinitial hl => ⟨hl, hps _ (hinitial.subset (by simp))⟩
  induction h with
  | identity => trivial
  | drop => trivial
  | controller => trivial
  | forward => trivial
  | exclusive => trivial
  | link => trivial
  | test _ hnames =>
    intro f hf
    obtain ⟨g, hg, rfl⟩ := List.mem_map.1 hf
    exact ⟨hnames g hg, g.2.isCanonical_canonical⟩
  | modify _ hnames => exact hnames
  | negate _ _ ih => exact ih
  | parallel _ ih => exact hjoined trivial ih
  | union _ _ ih => exact hjoined trivial ih
  | sequential _ ih => exact hjoined trivial ih
  | intersection _ _ ih => exact hjoined trivial ih
  | difference _ _ _ _ ihp ihq => exact ⟨ihp, ihq⟩
  | conditional _ _ _ _ ihc ihp ihq => exact ⟨ihc, ihp, ihq⟩

/-- The level at which a policy is written. -/
def writtenLevel (p : Policy) : Nat := if p.isCompound then 0 else 4

theorem rendering_asOperand {p : Policy} {t : String} (h : p.expr.Rendering p.writtenLevel t) :
    p.expr.Rendering 4 (p.asOperand t) := by
  unfold writtenLevel at h
  unfold asOperand
  split_ifs at h ⊢
  · exact h.parenthesised
  · exact h

section Joined

variable (op : Operator) (separator : String) {none : Expr} {empty : String} {env : Handle → String}
  {ps : List Policy}

/-- Parenthesised operands make a chain of the level of their operator. -/
theorem rendering_intercalate (hne : ps ≠ []) (hseparator : separator = " " ++ op.symbol ++ " ")
    (hps : ∀ p ∈ ps, p.expr.Rendering 4 (p.asOperand (p.render env))) :
    (Expr.joined op none (ps.map expr)).Rendering op.level
      (separator.intercalate (ps.map fun p => p.asOperand (p.render env))) := by
  refine Expr.joined_induction (M := fun e (qs : List Policy) => e.Rendering op.level
    (separator.intercalate (qs.map fun p => p.asOperand (p.render env)))) ?_ ?_ ?_
  · intro hnil
    exact absurd hnil hne
  · intro p hp
    rw [List.map_singleton, String.intercalate_singleton]
    exact (hps p hp).of_le op.level_lt.le
  · intro l qs p hqs hinitial hl
    rw [List.map_append, String.intercalate_append_of_ne_nil (by simpa using hqs) (by simp),
      List.map_singleton, String.intercalate_singleton]
    rw [hseparator] at hl ⊢
    exact hl.binary (hps p (hinitial.subset (by simp)))

theorem rendering_joined (hseparator : separator = " " ++ op.symbol ++ " ")
    (hnone : none.Rendering 4 empty)
    (hps : ∀ p ∈ ps, p.expr.Rendering p.writtenLevel (p.render env)) :
    (Expr.joined op none (exprs ps)).Rendering (if decide (ps.length > 1) then 0 else 4)
      (joined separator empty (renderOperands env ps)) := by
  have hoperands := fun p hp => rendering_asOperand (hps p hp)
  rw [exprs_eq_map, renderOperands_eq_map]
  match ps, hoperands with
  | [], _ => exact hnone
  | [p], hoperands => exact hoperands p List.mem_cons_self
  | p :: q :: ps, hoperands =>
    rw [if_pos (by simp)]
    apply Expr.Rendering.of_le (Nat.zero_le op.level)
    exact rendering_intercalate op separator (List.cons_ne_nil _ _) hseparator hoperands

end Joined

/-- The written form of a policy renders the expression of the policy. -/
theorem Printable.rendering {p : Policy} (h : Printable p) (env : Handle → String) :
    p.expr.Rendering p.writtenLevel (p.render env) := by
  have hdrop : Expr.drop.Rendering 4 "drop" := .constant rfl .drop
  have hidentity : Expr.identity.Rendering 4 "identity" := .constant rfl .identity
  have hcontroller : Expr.controller.Rendering 4 "controller" := .constant rfl .controller
  have hnumber : ∀ n : Int64, Layout [.integer n] (Decimal.text n.toInt).toList :=
    fun n => .one (Token.spelled_integer n)
  induction h with
  | identity => exact hidentity
  | drop => exact hdrop
  | controller => exact hcontroller
  | test _ hnames =>
    refine ⟨_, .test _, ?_⟩
    rw [List.map_map]
    exact Layout.call "match" "match(" rfl rfl (Layout.fields hnames Token.spelled_pattern)
  | modify _ hnames =>
    refine ⟨_, .modify _, ?_⟩
    exact Layout.call "modify" "modify(" rfl rfl (Layout.fields hnames Token.spelled_assigned)
  | negate _ _ ih => exact (rendering_asOperand ih).not
  | parallel _ ih => exact rendering_joined .parallel " + " rfl hdrop ih
  | union _ _ ih => exact rendering_joined .union " | " rfl hdrop ih
  | sequential _ ih => exact rendering_joined .sequential " >> " rfl hidentity ih
  | intersection _ _ ih => exact rendering_joined .intersection " & " rfl hidentity ih
  | difference _ _ _ _ ihp ihq =>
    have hleft := (rendering_asOperand ihp).of_le Operator.difference.level_lt.le
    exact (hleft.binary (rendering_asOperand ihq)).of_le (Nat.zero_le _)
  | conditional _ _ _ _ ihc ihp ihq =>
    obtain ⟨ts, hts, hc⟩ := ihc.of_le (Nat.zero_le _)
    obtain ⟨us, hus, hp⟩ := ihp.of_le (Nat.zero_le _)
    obtain ⟨vs, hvs, hq⟩ := ihq.of_le (Nat.zero_le _)
    refine ⟨_, .ite hts hus hvs, ?_⟩
    have hcall := Layout.call "if" "if(" rfl rfl (.cons hc (.cons hp (.cons hq .nil)))
    simp only [String.intercalate_cons_cons, String.intercalate_singleton] at hcall
    simpa only [render, String.append_assoc] using hcall
  | forward port =>
    have hcall := Layout.call "fwd" "fwd(" rfl rfl (.cons (hnumber port) .nil)
    rw [String.intercalate_singleton] at hcall
    exact ⟨_, .forward port, hcall⟩
  | exclusive port =>
    have hcall := Layout.call "xfwd" "xfwd(" rfl rfl (.cons (hnumber port) .nil)
    rw [String.intercalate_singleton] at hcall
    exact ⟨_, .exclusive port, hcall⟩
  | link l =>
    refine ⟨_, .link l, Layout.call "link" "link(" rfl rfl ?_⟩
    rw [List.forall₂_map_left_iff, List.forall₂_map_right_iff, List.forall₂_same]
    exact fun n _ => hnumber n

end Policy

end PacketPolicy
