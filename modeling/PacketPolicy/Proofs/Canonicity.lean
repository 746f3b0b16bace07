import PacketPolicy.Proofs.Dependencies
import PacketPolicy.Proofs.Elaboration
import PacketPolicy.Proofs.Plainness
import PacketPolicy.Proofs.Precedence
import PacketPolicy.Proofs.PredicateExactness
import PacketPolicy.Proofs.Printing

/-!
# Canonical predicates throughout

A pattern is canonical from the moment it is built, and nothing that is done to predicates
builds another one: the meet of two patterns is one of them, and moving a test before an
action only forgets constraints. So each constraint of a compiled rule stands in a match of
the policy, and is canonical if the matches of the policy are. Those of a policy that was
read always are.
-/

namespace PacketPolicy

namespace Pattern

theorem isCanonical_ofValue (v : Value) : (ofValue v).IsCanonical :=
  isCanonical_canonical (.exactly v)

theorem isCanonical_ofText (s : String) : (ofText s).IsCanonical := by
  unfold ofText
  split
  · trivial
  · split
    · exact isCanonical_ofNetwork _
    · trivial

theorem IsCanonical.of_meet? {p q r : Pattern} (hp : p.IsCanonical) (hq : q.IsCanonical)
    (h : p.meet? q = some r) : r.IsCanonical := by
  rcases eq_or_eq_of_meet? h with rfl | rfl
  · exact hp
  · exact hq

end Pattern

namespace Match

variable {m r : Match} {fields : List (String × Pattern)} {names : List String}

/-- Each constraint of a match stands among the fields it was built from. -/
theorem isCanonical_of_ofList? (h : ofList? fields = some m)
    (hfields : ∀ f ∈ fields, f.2.IsCanonical) : m.IsCanonical := by
  rw [ofList?] at h
  split_ifs at h with hne
  rw [List.isEmpty_iff] at hne
  obtain rfl := Option.some.inj h
  have hget : ∀ field, get? ⟨.ofList fields⟩ field =
      (fields.reverse.find? fun e => field = e.1).map Prod.snd :=
    SortedMap.get?_ofList fields
  refine isCanonical_iff.2 ⟨?_, ?_⟩
  · obtain ⟨f, hf⟩ := List.exists_mem_of_ne_nil fields hne
    have hfound : (fields.reverse.find? fun e => f.1 = e.1).isSome = true :=
      List.find?_isSome.2 ⟨f, List.mem_reverse.2 hf, by simp⟩
    obtain ⟨e, he⟩ := Option.isSome_iff_exists.1 hfound
    exact ⟨f.1, e.2, by rw [hget, he]; rfl⟩
  · intro field p hp
    rw [hget] at hp
    obtain ⟨e, he, rfl⟩ := Option.map_eq_some_iff.1 hp
    exact hfields e (List.mem_reverse.1 (List.mem_of_find?_eq_some he))

theorem isCanonical_ofHead {field : String} {p : Pattern}
    (h : ∀ f ∈ (field, p) :: fields, f.2.IsCanonical) : (ofHead field p fields).IsCanonical :=
  isCanonical_of_ofList? rfl h

theorem get?_of_without? (h : m.without? names = some r) {field : String} {p : Pattern}
    (hp : r.get? field = some p) : m.get? field = some p := by
  simp only [without?] at h
  split_ifs at h
  obtain rfl := Option.some.inj h
  rw [get?, SortedMap.get?_foldl_erase] at hp
  split_ifs at hp
  exact hp

theorem IsCanonical.of_without? (hm : m.IsCanonical) (h : m.without? names = some r) :
    r.IsCanonical := by
  refine ⟨?_, fun e he => ?_⟩
  · simp only [without?] at h
    split_ifs at h with hempty
    rw [← Option.some.inj h, ← Bool.not_eq_true]
    exact hempty
  · exact (isCanonical_iff.1 hm).2 e.1 e.2 (get?_of_without? h (SortedMap.mem_entries.1 he))

end Match

namespace Predicate

variable {p q : Predicate} {field : String} {pattern : Pattern}

theorem field?_of_meet (h : (p.meet q).field? field = some pattern) :
    p.field? field = some pattern ∨ q.field? field = some pattern := by
  cases p with
  | identity =>
    rw [identity_meet] at h
    exact .inr h
  | drop => cases h
  | test m =>
    cases q with
    | identity => exact .inl h
    | drop => cases h
    | test n =>
      rw [meet] at h
      cases hmeet : m.meet? n with
      | none =>
        rw [hmeet] at h
        cases h
      | some r =>
        rw [hmeet] at h
        exact Match.get?_of_meet? hmeet h

/-- A test before an action, in place of one after it, is the same test, or is true or false, or
is what is left of the match. -/
theorem before_cases {A : Predicate → Prop} (a : Action) (hself : A p) (hidentity : A .identity)
    (hdrop : A .drop)
    (hleft : ∀ t names r, p = .test t → t.without? names = some r → A (.test r)) :
    A (p.before a) := by
  cases a with
  | identity => exact hself
  | drop => exact hdrop
  | controller | query => exact hidentity
  | modify m =>
    cases p with
    | identity | drop => exact hself
    | test t =>
      rw [before, beforeModification]
      split_ifs
      · cases h : t.without? m.names with
        | none => exact hidentity
        | some r => exact hleft t m.names r rfl h
      · exact hdrop

theorem IsCanonical.before (hp : p.IsCanonical) (a : Action) : (p.before a).IsCanonical := by
  refine before_cases a hp trivial trivial ?_
  rintro t names r rfl h
  exact Match.IsCanonical.of_without? hp h

theorem field?_of_before {a : Action} (h : (p.before a).field? field = some pattern) :
    p.field? field = some pattern := by
  revert h
  refine before_cases (A := fun q => q.field? field = some pattern → _) a id nofun nofun ?_
  rintro t names r rfl hleft
  exact Match.get?_of_without? hleft

/-- A property that merging keeps: predicates made of predicates with it have it too. -/
structure Stable (A : Predicate → Prop) : Prop where
  identity : A .identity
  meet : ∀ {p q}, A p → A q → A (p.meet q)
  before : ∀ {p} (a : Action), A p → A (p.before a)

theorem stable_isCanonical : Stable IsCanonical where
  identity := trivial
  meet := IsCanonical.meet
  before a hp := hp.before a

/-- No constraints are added. -/
theorem stable_field? (Q : String → Pattern → Prop) :
    Stable fun p => ∀ field pattern, p.field? field = some pattern → Q field pattern where
  identity _ _ := nofun
  meet hp hq field pattern h := (field?_of_meet h).elim (hp field pattern) (hq field pattern)
  before _ hp field pattern h := hp field pattern (field?_of_before h)

end Predicate

/-! ## Compiled rules -/

namespace Table

/-- All predicates in the table have a property. -/
def AllPredicates (A : Predicate → Prop) (t : Table) : Prop := ∀ r ∈ t.rules, A r.predicate

namespace AllPredicates

variable {A : Predicate → Prop} {a b t : Table}

theorem single (hA : Predicate.Stable A) (x : Action) : (single x).AllPredicates A :=
  List.forall_mem_singleton.2 hA.identity

theorem parallel (hA : Predicate.Stable A) (optimize : Bool) (ha : a.AllPredicates A)
    (hb : b.AllPredicates A) : (parallel optimize a b).AllPredicates A := by
  intro r hr
  rcases mem_parallel hr with ⟨-, x, hx, y, hy, rfl⟩ | hr | hr
  · exact hA.meet (ha x hx) (hb y hy)
  · exact ha r hr
  · exact hb r hr

theorem push (hA : Predicate.Stable A) (x : Action) (ht : t.AllPredicates A) :
    (push x t).AllPredicates A := by
  intro r hr
  rcases (mem_push hr).2 with rfl | ⟨s, hs, rfl⟩
  · exact hA.identity
  · exact hA.before x (ht s hs)

theorem sequential (hA : Predicate.Stable A) (optimize : Bool) (ha : a.AllPredicates A)
    (hb : b.AllPredicates A) : (sequential optimize a b).AllPredicates A := by
  intro r hr
  obtain ⟨-, x, hx, y, hy, rfl⟩ := mem_sequential hr
  have hpushed : (pushAll optimize x.actions b).AllPredicates A :=
    pushAll_induction optimize (single hA .drop) (fun z _ => hb.push hA z)
      fun _ _ => parallel hA optimize
  exact hA.meet (hpushed y hy) (ha x hx)

theorem negate {optimize : Bool} {u : Table} (ht : t.AllPredicates A)
    (hneg : t.negate optimize = .ok u) : u.AllPredicates A := by
  intro r hr
  obtain ⟨x, hx, rfl⟩ := mem_negate hneg hr
  exact ht x hx

end AllPredicates

end Table

/-- What is stable, and holds of the matches in a term, holds of all predicates in its table. -/
theorem Term.Compiles.allPredicates {A : Predicate → Prop} (hA : Predicate.Stable A)
    {c : CompileSettings} {t : Term} {a : Table} (h : Compiles c t a)
    (ht : ∀ m, Has (.test m) t → A (.test m)) : a.AllPredicates A := by
  induction h with
  | identity | drop | modify | controller | query | parallelNil | sequentialNil =>
    exact .single hA _
  | test m =>
    exact List.forall_mem_cons.2 ⟨ht m .here, List.forall_mem_singleton.2 hA.identity⟩
  | negate _ hneg ih => exact (ih fun m hm => ht m (.negate hm)).negate hneg
  | parallelOne _ ih => exact ih fun m hm => ht m (hm.of_mem_operands List.mem_cons_self)
  | parallelSnoc _ _ _ iha ihb =>
    have ha := iha fun m hm => ht m (hm.mono trivial not_false (List.subset_append_left _ _))
    have hb := ihb fun m hm => ht m (hm.of_mem_operands (List.mem_append_right _ (by simp)))
    exact ha.parallel hA c.optimize hb
  | sequentialOne _ ih => exact ih fun m hm => ht m (hm.of_mem_operands List.mem_cons_self)
  | sequentialSnoc _ _ _ iha ihb =>
    have ha := iha fun m hm => ht m (hm.mono trivial not_false (List.subset_append_left _ _))
    have hb := ihb fun m hm => ht m (hm.of_mem_operands (List.mem_append_right _ (by simp)))
    exact ha.sequential hA c.optimize hb

namespace Store

variable {s : Store} {p : Policy}

theorem allPredicates_of_compile {A : Predicate → Prop} (hA : Predicate.Stable A)
    {c : CompileSettings} {t : Table} (ht : s.compile c p = .ok t)
    (hp : ∀ m, .test m ∈ s.parts p → A (.test m)) : t.AllPredicates A :=
  (Term.compile_eq_ok_iff.1 ht).allPredicates hA fun m hm =>
    hp m (mem_parts_of_has rfl (by simp) hm)

end Store

/-! ## Policies that are read -/

namespace Policy

/-- All matches among the parts of the policy have a property, whatever its handles refer to. -/
def MatchesAll (T : Match → Prop) (p : Policy) : Prop := ∀ env m, .test m ∈ parts env p → T m

section

variable {T : Match → Prop} {p q : Policy}

theorem matchesAll_iff_partsAll :
    p.MatchesAll T ↔ PartsAll (fun q => ∀ m, q = .test m → T m) p := by
  refine forall_congr' fun env => ?_
  constructor
  · rintro h q hq m rfl
    exact h m hq
  · intro h m hm
    exact h _ hm m rfl

theorem matchesAll_negate : (negate p).MatchesAll T ↔ p.MatchesAll T := by
  simp [MatchesAll, parts]

theorem matchesAll_difference :
    (difference p q).MatchesAll T ↔ p.MatchesAll T ∧ q.MatchesAll T := by
  simp [MatchesAll, parts, or_imp, forall_and]

theorem matchesAll_conditional {c : Policy} : (conditional c p q).MatchesAll T ↔
    c.MatchesAll T ∧ p.MatchesAll T ∧ q.MatchesAll T := by
  simp [MatchesAll, parts, or_imp, forall_and]
  tauto

/-- Two policies joined into one list of those that they run. -/
theorem MatchesAll.append {node : List Policy → Policy} {ps qs : List Policy}
    (hparts : ∀ env qs, parts env (node qs) = node qs :: partsOfAll env qs)
    (hnode : ∀ qs m, node qs ≠ .test m) (hps : p = node ps ∨ ps = [p])
    (hqs : q = node qs ∨ qs = [q]) (hp : p.MatchesAll T) (hq : q.MatchesAll T) :
    (node (ps ++ qs)).MatchesAll T := by
  rw [matchesAll_iff_partsAll] at *
  exact .append hparts (fun m hm => absurd hm (hnode _ m)) hps hqs hp hq

/-- Two matches become one, which has the property if meets have it. -/
theorem MatchesAll.and (hT : ∀ {m n r}, T m → T n → Match.meet? m n = some r → T r)
    {f g : Filter} (hf : f.policy.MatchesAll T) (hg : g.policy.MatchesAll T) :
    (f.and g).policy.MatchesAll T := by
  unfold Filter.and
  split
  · next m n hm hn =>
    rw [hm] at hf
    rw [hn] at hg
    cases h : m.meet? n with
    | none => simp [MatchesAll, Filter.drop, parts]
    | some r =>
      intro env k hk
      obtain rfl := test.inj (List.mem_singleton.1 hk)
      exact hT (hf env m (self_mem_parts env _)) (hg env n (self_mem_parts env _)) h
  · exact .append (fun _ _ => rfl) (by simp) f.eq_or_conjuncts_eq g.eq_or_conjuncts_eq hf hg

end

end Policy

/-- In a policy that is built from plain fields all matches are canonical. -/
theorem Expr.Elaborates.matchesAll {e : Expr} {p : Policy} (h : Elaborates e p) (he : e.Plain) :
    p.MatchesAll Match.IsCanonical := by
  induction h with
  | identity | drop | controller | modify | forward => simp [Policy.MatchesAll, Policy.parts]
  | test hm =>
    intro env m hmem
    obtain rfl := Policy.test.inj (List.mem_singleton.1 hmem)
    exact Match.isCanonical_of_ofList? hm fun f hf => (he f hf).2
  | exclusive port =>
    have hport : (Match.int "inport" port).IsCanonical :=
      Match.isCanonical_ofHead (by simp [Pattern.IsCanonical])
    simpa [Policy.MatchesAll, Policy.parts] using hport
  | link l =>
    have hplace : (Match.atPort "outport" l.source).IsCanonical :=
      Match.isCanonical_ofHead (by simp [Pattern.IsCanonical])
    simpa [Policy.MatchesAll, Policy.parts] using hplace
  | when _ _ ihc iht =>
    refine Policy.matchesAll_conditional.2 ⟨ihc he.1, iht he.2, ?_⟩
    simp [Policy.MatchesAll, Policy.parts]
  | ite _ _ _ ihc iht ihe =>
    exact Policy.matchesAll_conditional.2 ⟨ihc he.1, iht he.2.1, ihe he.2.2⟩
  | not _ ih => exact Policy.matchesAll_negate.2 (ih he)
  | @parallel _ _ p q _ _ ihl ihr =>
    exact .append (fun _ _ => rfl) (by simp) p.eq_or_summands_eq q.eq_or_summands_eq
      (ihl he.1) (ihr he.2)
  | @sequential _ _ p q _ _ ihl ihr =>
    exact .append (fun _ _ => rfl) (by simp) p.eq_or_factors_eq q.eq_or_factors_eq
      (ihl he.1) (ihr he.2)
  | difference _ _ ihl ihr => exact Policy.matchesAll_difference.2 ⟨ihl he.1, ihr he.2⟩
  | intersection _ _ ihl ihr => exact .and Match.IsCanonical.of_meet? (ihl he.1) (ihr he.2)
  | @union _ _ f g _ _ ihl ihr =>
    exact .append (fun _ _ => rfl) (by simp) f.eq_or_disjuncts_eq g.eq_or_disjuncts_eq
      (ihl he.1) (ihr he.2)

/-- Patterns are canonical however they are built or read. They stay so in meets, without some
headers, before actions and in compiled rules, which ask only what some match of the policy asks. -/
theorem isCanonical_throughout :
    (∀ n, (Pattern.ofNetwork n).IsCanonical) ∧
    (∀ v, (Pattern.ofValue v).IsCanonical) ∧
    (∀ text, (Pattern.ofText text).IsCanonical) ∧
    (∀ cs p rest, Grammar.pattern cs = .done p rest → p.IsCanonical) ∧
    (∀ text p, Policy.ofText text = .ok p →
      ∀ (s : Store) m, .test m ∈ s.parts p → m.IsCanonical) ∧
    (∀ p q r : Pattern, p.IsCanonical → q.IsCanonical → p.meet? q = some r → r.IsCanonical) ∧
    (∀ m n r : Match, m.IsCanonical → n.IsCanonical → m.meet? n = some r → r.IsCanonical) ∧
    (∀ (m : Match) names r, m.IsCanonical → m.without? names = some r → r.IsCanonical) ∧
    (∀ p q : Predicate, p.IsCanonical → q.IsCanonical → (p.meet q).IsCanonical) ∧
    (∀ (p : Predicate) a, p.IsCanonical → (p.before a).IsCanonical) ∧
    ∀ (s : Store) c p t, (∀ m, .test m ∈ s.parts p → m.IsCanonical) → s.compile c p = .ok t →
      ∀ r ∈ t.rules, r.predicate.IsCanonical ∧
        ∀ field pattern, r.predicate.field? field = some pattern →
          ∃ m, .test m ∈ s.parts p ∧ m.get? field = some pattern := by
  refine ⟨Pattern.isCanonical_ofNetwork, Pattern.isCanonical_ofValue, Pattern.isCanonical_ofText,
    Grammar.gives_pattern, ?_, fun _ _ _ => .of_meet?, fun _ _ _ => .of_meet?,
    fun _ _ _ => .of_without?, fun _ _ => .meet, fun _ a hp => hp.before a, ?_⟩
  · intro text p htext s
    obtain ⟨e, hread, he⟩ := Policy.ofText_eq_ok_iff.1 htext
    exact he.matchesAll (Expr.plain_of_ofText hread) _
  · intro s c p t hp ht r hr
    have hasked := Store.allPredicates_of_compile (Predicate.stable_field? fun field pattern =>
      ∃ m, .test m ∈ s.parts p ∧ m.get? field = some pattern) ht
      fun m hm field pattern h => ⟨m, hm, h⟩
    exact ⟨Store.allPredicates_of_compile Predicate.stable_isCanonical ht hp r hr, hasked r hr⟩

/-- A network inside another one, by itself and in a match with another header. -/
theorem isCanonical_throughout_nested :
    (∃ p, Policy.ofText "match(vlan=1)" = .ok p ∧
      ∀ (s : Store) m, .test m ∈ s.parts p → m.IsCanonical) ∧
    ∃ (wide narrow : Pattern) (m n : Match) (write : Modification) (t : Table),
      wide = .ofNetwork ⟨.ofOctets 10 0 0 0, 8, by decide⟩ ∧
      narrow = .ofNetwork ⟨.ofOctets 10 9 8 7, 16, by decide⟩ ∧
      m = .single "dst" wide ∧ n = .ofHead "dst" narrow [("vlan", .exactly (.int 1))] ∧
      write = .single "vlan" (some (.int 1)) ∧
      (Grammar.pattern "10.9.8.7/16".toList = .done narrow [] ∧ narrow.IsCanonical) ∧
      (wide.meet? narrow = some narrow ∧ narrow.IsCanonical) ∧
      (m.meet? n = some n ∧ n.IsCanonical) ∧
      (n.without? ["vlan"] = some (.single "dst" narrow) ∧
        (Match.single "dst" narrow).IsCanonical) ∧
      ((Predicate.test m).meet (.test n)).IsCanonical ∧
      ((Predicate.test n).before (.modify write)).IsCanonical ∧
      Store.compile {} {} (.sequential [.test m, .modify write, .test n]) = .ok t ∧
      ∀ r ∈ t.rules, r.predicate.IsCanonical := by
  obtain ⟨-, -, -, hliteral, htexts, hpattern, hmatch, hwithout, hmeet, hbefore, hcompile⟩ :=
    isCanonical_throughout
  have hlayout : Layout _ _ :=
    .token (.word (w := "match") rfl) <| .token (.mark .opening) <|
    .token (.word (w := "vlan") rfl) <| .token (.mark .equals) <|
    .token (.integer (n := 1) (.positive (n := 1) Nat.one_pos)) <| .one (.mark .closing)
  have hread : Expr.ofText "match(vlan=1)" = .ok (.test [("vlan", .exactly (.int 1))]) :=
    Expr.ofChars_of_layout ((Expr.Renders.test _).of_le (by decide))
      (List.forall_mem_singleton.2 ⟨rfl, trivial⟩) hlayout
  have htext := Policy.ofText_eq_ok_iff.2 ⟨_, hread, .test rfl⟩
  let wide : Pattern := .ofNetwork ⟨.ofOctets 10 0 0 0, 8, by decide⟩
  let narrow : Pattern := .ofNetwork ⟨.ofOctets 10 9 8 7, 16, by decide⟩
  let m : Match := .single "dst" wide
  let n : Match := .ofHead "dst" narrow [("vlan", .exactly (.int 1))]
  let write : Modification := .single "vlan" (some (.int 1))
  have hm : m.IsCanonical := by decide +kernel
  have hn : n.IsCanonical := by decide +kernel
  have hparts : ∀ k, .test k ∈ Store.parts {} (.sequential [.test m, .modify write, .test n]) →
      k.IsCanonical := by
    simp [Store.parts, Store.reading, Policy.parts, Policy.partsOfAll, hm, hn]
  have hpart : Grammar.pattern "10.9.8.7/16".toList = .done narrow [] := by decide +kernel
  have hnarrow : wide.meet? narrow = some narrow := by decide +kernel
  have hboth : m.meet? n = some n := by decide +kernel
  have hrest : n.without? ["vlan"] = some (.single "dst" narrow) := by decide +kernel
  exact ⟨⟨_, htext, htexts _ _ htext⟩, wide, narrow, m, n, write, _, rfl, rfl, rfl, rfl, rfl,
    ⟨hpart, hliteral _ _ _ hpart⟩,
    ⟨hnarrow, hpattern _ _ _ (by decide +kernel) (hliteral _ _ _ hpart) hnarrow⟩,
    ⟨hboth, hmatch _ _ _ hm hn hboth⟩, ⟨hrest, hwithout _ _ _ hn hrest⟩, hmeet _ _ hm hn,
    hbefore _ _ hn, rfl, fun r hr => (hcompile {} {} _ _ hparts rfl r hr).1⟩

end PacketPolicy
