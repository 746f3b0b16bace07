import PacketPolicy.Proofs.PolicyParts

/-!
# Policies restricted to some headers

Every modification that sets a header outside of a set is left to the controller. The
defined forms that set headers are spelled out first. Restriction may be done to the
policy and the definitions it uses, or to its term.
-/

namespace PacketPolicy

namespace Policy

/-- The modification, or the controller in its place. -/
def restrictModify (headers : HeaderSet) (m : Modification) : Policy :=
  if m.writesOutside headers then .controller else .modify m

mutual

/-- The policy with the controller in place of each modification that sets other headers. -/
def restrict (headers : HeaderSet) : Policy → Policy
  | .identity => .identity
  | .drop => .drop
  | .test m => .test m
  | .modify m => restrictModify headers m
  | .controller => .controller
  | .query s => .query s
  | .negate p => .negate (restrict headers p)
  | .parallel ps => .parallel (restrictAll headers ps)
  | .union ps => .union (restrictAll headers ps)
  | .sequential ps => .sequential (restrictAll headers ps)
  | .intersection ps => .intersection (restrictAll headers ps)
  | .difference p q => .difference (restrict headers p) (restrict headers q)
  | .conditional c p q =>
    .conditional (restrict headers c) (restrict headers p) (restrict headers q)
  | .forward port => restrictModify headers (.leaveBy port)
  | .exclusive port =>
    .sequential [.negate (.test (.int "inport" port)), restrictModify headers (.leaveBy port)]
  | .link l =>
    .sequential [.test (.atPort "outport" l.source), restrictModify headers (.comeInAt l.target)]
  | .dynamic h => .dynamic h

def restrictAll (headers : HeaderSet) : List Policy → List Policy
  | [] => []
  | p :: ps => restrict headers p :: restrictAll headers ps

end

end Policy

/-- The definitions of handles, each restricted to the headers. -/
def Store.restrict (headers : HeaderSet) (s : Store) : Store :=
  ⟨s.definitions.map fun d => { d with policy := d.policy.restrict headers }⟩

namespace Term

mutual

/-- The term with the controller in place of each modification that sets other headers. -/
def restrict (headers : HeaderSet) : Term → Term
  | .identity => .identity
  | .drop => .drop
  | .test m => .test m
  | .modify m => if m.writesOutside headers then .controller else .modify m
  | .controller => .controller
  | .query s => .query s
  | .negate t => .negate (restrict headers t)
  | .parallel ts => .parallel (restrictAll headers ts)
  | .sequential ts => .sequential (restrictAll headers ts)

def restrictAll (headers : HeaderSet) : List Term → List Term
  | [] => []
  | t :: ts => restrict headers t :: restrictAll headers ts

end

theorem restrictAll_eq_map (headers : HeaderSet) (ts : List Term) :
    restrictAll headers ts = ts.map (restrict headers) := by
  induction ts with
  | nil => rfl
  | cons t ts ih => simp [restrictAll, ih]

theorem restrict_parallel (headers : HeaderSet) (ts : List Term) :
    restrict headers (.parallel ts) = .parallel (ts.map (restrict headers)) := by
  rw [restrict, restrictAll_eq_map]

theorem restrict_sequential (headers : HeaderSet) (ts : List Term) :
    restrict headers (.sequential ts) = .sequential (ts.map (restrict headers)) := by
  rw [restrict, restrictAll_eq_map]

theorem restrictAll_eq_self {headers : HeaderSet} {ps : List Policy} {ts : List Term}
    (h : List.Forall₂ (fun _ t => restrict headers t = t) ps ts) : restrictAll headers ts = ts := by
  induction h with
  | nil => rfl
  | cons ht _ ih => rw [restrictAll, ht, ih]

end Term

variable (headers : HeaderSet)

namespace Policy

theorem toTerm_restrictModify (env : Handle → Term) (m : Modification) :
    toTerm env (restrictModify headers m) = Term.restrict headers (.modify m) := by
  rw [restrictModify, Term.restrict]
  split_ifs <;> rfl

mutual

/-- It makes no difference whether the policy is restricted or its term. -/
theorem toTerm_restrict (env : Handle → Term) : (p : Policy) →
    toTerm (fun h => (env h).restrict headers) (restrict headers p) =
      (toTerm env p).restrict headers
  | .identity | .drop | .test _ | .controller | .query _ | .dynamic _ => rfl
  | .modify m | .forward _ => toTerm_restrictModify headers _ _
  | .exclusive port | .link l => by
    simp only [restrict, toTerm, toTerms, toTerm_restrictModify, Term.restrict, Term.restrictAll]
  | .negate p => by
    simp only [restrict, toTerm, Term.restrict, toTerm_restrict env p]
  | .parallel ps | .union ps | .sequential ps | .intersection ps => by
    simp only [restrict, toTerm, Term.restrict, toTerms_restrictAll env ps]
  | .difference p q => by
    simp only [restrict, toTerm, Term.restrict, Term.restrictAll, toTerm_restrict env p,
      toTerm_restrict env q]
  | .conditional c p q => by
    simp only [restrict, toTerm, Term.restrict, Term.restrictAll, toTerm_restrict env c,
      toTerm_restrict env p, toTerm_restrict env q]

theorem toTerms_restrictAll (env : Handle → Term) : (ps : List Policy) →
    toTerms (fun h => (env h).restrict headers) (restrictAll headers ps) =
      Term.restrictAll headers (toTerms env ps)
  | [] => rfl
  | p :: ps => by
    simp only [restrictAll, toTerms, Term.restrictAll, toTerm_restrict env p,
      toTerms_restrictAll env ps]

end

end Policy

namespace Store

theorem definition_restrict (s : Store) (h : Handle) :
    (s.restrict headers).definition h = (s.definition h).restrict headers := by
  unfold definition get? restrict
  rw [List.getElem?_map]
  cases s.definitions[h.id]? <;> rfl

theorem unfold_restrict (s : Store) (depth : Nat) (h : Handle) :
    (s.restrict headers).unfold Policy.toTerm .drop depth h =
      (s.unfold Policy.toTerm .drop depth h).restrict headers := by
  induction depth generalizing h with
  | zero => rfl
  | succ depth ih =>
    have henv : (s.restrict headers).unfold Policy.toTerm .drop depth =
        fun k => (s.unfold Policy.toTerm .drop depth k).restrict headers := funext ih
    rw [unfold, unfold, henv, definition_restrict, Policy.toTerm_restrict]

theorem term_restrict (s : Store) (p : Policy) :
    (s.restrict headers).term (p.restrict headers) = (s.term p).restrict headers := by
  have hsize : (s.restrict headers).size = s.size := List.length_map _
  have henv : (s.restrict headers).unfold Policy.toTerm .drop s.size =
      fun k => (s.unfold Policy.toTerm .drop s.size k).restrict headers :=
    funext (s.unfold_restrict headers s.size)
  rw [term, reading, hsize, henv, Policy.toTerm_restrict]
  rfl

/-- If no part of a policy sets other headers, restriction changes nothing. -/
theorem carried_restrict (s : Store) :
    Carried s (fun l => ∀ m, .modify m ∈ l → m.writesOutside headers = false)
      (fun _ t => t.restrict headers = t) where
  antitone hlk hk m hm := hk m (hlk hm)
  stuck _ := rfl
  leaf {l q t} hl hq hleaf := by
    cases q <;> simp only [Policy.leaf?, Option.some.injEq, reduceCtorEq] at hleaf <;> subst hleaf
    case modify m => rw [Term.restrict, hl m hq, if_neg Bool.false_ne_true]
    all_goals rfl
  negate _ _ h := congrArg Term.negate h
  beside h := by
    have hall := Term.restrictAll_eq_self h
    exact ⟨congrArg Term.parallel hall, congrArg Term.parallel hall⟩
  along h := by
    have hall := Term.restrictAll_eq_self h
    exact ⟨congrArg Term.sequential hall, congrArg Term.sequential hall⟩
  defined _ h := h
  dynamic _ _ h := h

end Store

end PacketPolicy
