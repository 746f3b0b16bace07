import PacketPolicy.Table.Basic

/-!
# Merging tables

Two tables run side by side (`parallel`) or one after the other (`sequential`)
are again a table. Both merges can leave rules behind that are never reached,
because a rule before them covers them; `prune` removes those.
-/

namespace PacketPolicy

namespace Predicate

/-- The predicate that accepts a packet exactly when `p` accepts what the modification makes
of it. -/
def beforeModification (m : Modification) : Predicate → Predicate
  | .test t =>
    if m.fields.entries.all fun e => (t.get? e.1).all fun p => e.2.any p.accepts then
      (t.without? m.names).elim .identity .test
    else .drop
  | p => p

/-- What to test before an action in place of testing `p` after it. Nothing is tested after a
terminal action, and nothing is left after `drop`. -/
def before (p : Predicate) : Action → Predicate
  | .identity => p
  | .drop => .drop
  | .modify m => beforeModification m p
  | .controller => .identity
  | .query _ => .identity

end Predicate

namespace Action

/-- An action and then another, on a packet that both see. -/
def andThen (a : Action) : Action → Action
  | .identity => a
  | .modify n =>
    match a with
    | .modify m => .modify (m.andThen n)
    | _ => .modify n
  | b => b

/-- An action and then the actions of a rule. -/
def followedBy (a : Action) (actions : List Action) : List Action :=
  match a with
  | .identity => actions
  | .modify _ => actions.map a.andThen
  | .drop => [.drop]
  | .controller => [.controller]
  | .query s => [.query s]

/-- The actions of two rules side by side: each once, and `drop` only if nothing else is left. -/
def union (as bs : List Action) : List Action :=
  match ((as ++ bs).filter (· ≠ .drop)).eraseDups with
  | [] => [.drop]
  | actions => actions

end Action

namespace Table

/-- Keep the rules that no predicate in `above` and no kept rule before them covers. -/
def unshadowed (above : List Predicate) : List Rule → List Rule
  | [] => []
  | r :: rest =>
    if above.any (·.covers r.predicate) then unshadowed above rest
    else r :: unshadowed (r.predicate :: above) rest

/-- Remove every rule that a rule before it covers. -/
def prune (t : Table) : Table := ⟨unshadowed [] t.rules⟩

def pruneIf (optimize : Bool) (t : Table) : Table := if optimize then t.prune else t

/-- The rule for the packets that two rules both accept, if they accept any in common. -/
def crossRule (r s : Rule) : Option Rule :=
  match r.predicate.meet s.predicate with
  | .drop => none
  | p => some ⟨p, Action.union r.actions s.actions⟩

/-- The rules for the packets that a rule of each table accepts. -/
def cross (a b : List Rule) : List Rule := a.flatMap fun r => b.filterMap (crossRule r)

/-- Every packet gets what both tables do to it. The combined rules stand first, so each table's
own rules are left with the packets that the other does not accept. -/
def parallel (optimize : Bool) (a b : Table) : Table :=
  pruneIf optimize ⟨cross a.rules b.rules ++ a.rules ++ b.rules⟩

/-- The rules of a table as seen before an action. Rules after one that accepts everything are
not reached. -/
def pushRules (a : Action) : List Rule → List Rule
  | [] => []
  | r :: rest =>
    match r.predicate.before a with
    | .drop => pushRules a rest
    | .identity => [⟨.identity, a.followedBy r.actions⟩]
    | p => ⟨p, a.followedBy r.actions⟩ :: pushRules a rest

/-- An action and then a table. -/
def push (a : Action) (t : Table) : Table :=
  match pushRules a t.rules with
  | [] => dropAll
  | rules => ⟨rules⟩

/-- Some actions side by side, and then a table. -/
def pushAll (optimize : Bool) (actions : List Action) (t : Table) : Table :=
  match actions with
  | [] => dropAll
  | a :: rest => rest.foldl (fun acc b => parallel optimize acc (push b t)) (push a t)

def restrictRule (p : Predicate) (r : Rule) : Option Rule :=
  match r.predicate.meet p with
  | .drop => none
  | q => some ⟨q, r.actions⟩

/-- A rule and then a table, for the packets that the rule accepts. -/
def sequenceRule (optimize : Bool) (r : Rule) (t : Table) : Table :=
  pruneIf optimize ⟨(pushAll optimize r.actions t).rules.filterMap (restrictRule r.predicate)⟩

/-- Every packet gets what the second table does to what the first passes on. -/
def sequential (optimize : Bool) (a b : Table) : Table :=
  pruneIf optimize ⟨a.rules.flatMap fun r => (sequenceRule optimize r b).rules⟩

end Table

end PacketPolicy
