import PacketPolicy.Proofs.Commands

/-!
# Tables that follow their policies

A policy is compiled into a table, and all handles that it depends on are watched: when
one of them gets another definition, the policy is compiled again. As long as nothing
gets in the way (`Watched`), the table in force is at all times the one that the policy
has now. A command that changes no definition compiles nothing.
-/

namespace PacketPolicy

/-! ## What reactive policies remember -/

namespace Reactive

/-- The part of a snapshot that matters to the policy. -/
def view : Reactive → Topology → SpanningTree ⊕ SortedSet Location
  | .flood _, t => .inl t.tree
  | .edge _ _, t => .inr t.egress

/-- The part of the last snapshot that the policy was made from. -/
def last? : Reactive → Option (SpanningTree ⊕ SortedSet Location)
  | .flood last => last.map .inl
  | .edge _ last => last.map .inr

variable {r : Reactive} {t : Topology}

/-- A snapshot that shows nothing new changes nothing. -/
theorem update_eq_none_iff : r.update t = none ↔ r.last? = some (r.view t) := by
  cases r <;> simp [update, last?, view]

theorem next_spec (r : Reactive) (t : Topology) :
    (r.next t).last? = some (r.view t) ∧ (r.next t).view = r.view := by
  cases r <;> rw [next, update] <;> split_ifs with h
  · exact ⟨congrArg (Option.map Sum.inl) h, rfl⟩
  · exact ⟨rfl, rfl⟩
  · exact ⟨congrArg (Option.map Sum.inr) h, rfl⟩
  · exact ⟨rfl, rfl⟩

end Reactive

/-- The snapshot that a command shows to a reactive policy. -/
def Command.snapshot? (i : Nat) : Command → Option Topology
  | .setNetwork j t => if j = i then some t else none
  | _ => none

/-- The last snapshot that was shown to a reactive policy. -/
def lastShown (i : Nat) (cmds : List Command) : Option Topology :=
  cmds.reverse.findSome? (Command.snapshot? i)

theorem lastShown_snoc (i : Nat) (cmds : List Command) (cmd : Command) :
    lastShown i (cmds ++ [cmd]) = (cmd.snapshot? i).or (lastShown i cmds) := by
  simp only [lastShown, List.reverse_append, List.reverse_singleton, List.singleton_append,
    List.findSome?_cons]
  cases cmd.snapshot? i <;> rfl

namespace Controller

variable {c d : Controller} {cmds before : List Command}

/-- Each reactive policy was made from the last snapshot that was shown to it. -/
def Remembers (c : Controller) (cmds : List Command) : Prop :=
  ∀ i, match c.reactive[i]? with
    | none => lastShown i cmds = none
    | some r => r.source.last? = (lastShown i cmds).map r.source.view

theorem Remembers.perform (hc : c.Remembers cmds) {cmd : Command} (hcmd : cmd.Admissible c) :
    (c.perform cmd).1.Remembers (cmds ++ [cmd]) := by
  intro i
  have hi := hc i
  rw [reactive_perform, lastShown_snoc]
  have hnew : ∀ r : ReactivePolicy, r.source.last? = none → match (c.reactive ++ [r])[i]? with
      | none => lastShown i cmds = none
      | some r => r.source.last? = (lastShown i cmds).map r.source.view := by
    intro r hr
    rcases Nat.lt_trichotomy i c.reactive.length with hlt | heq | hgt
    · rwa [List.getElem?_append_left hlt]
    · rw [List.getElem?_eq_none (by omega)] at hi
      simp [heq, hr, ← hi]
    · rw [List.getElem?_eq_none (by omega)] at hi
      rwa [List.getElem?_eq_none (by simp; omega)]
  cases cmd with
  | createFlood => exact hnew _ rfl
  | createEdge side => exact hnew _ rfl
  | setNetwork j t =>
    rw [List.getElem?_modify]
    by_cases hij : j = i
    · subst hij
      obtain ⟨r, hr⟩ : ∃ r, c.reactive[j]? = some r := ⟨_, List.getElem?_eq_getElem hcmd⟩
      obtain ⟨hlast, hview⟩ := r.source.next_spec t
      simp [hr, Command.snapshot?, hlast, hview]
    · simpa [Command.snapshot?, hij] using hi
  | _ => exact hi

theorem remembers_of_empty (hreactive : c.reactive = []) : c.Remembers [] := by
  intro i
  rw [hreactive]
  rfl

theorem Run.remembers {Good : Controller → Prop} (h : Run Good c cmds d)
    (hc : c.Remembers before) : d.Remembers (before ++ cmds) := by
  induction h with
  | nil => simpa using hc
  | snoc _ hcmd _ ih =>
    rw [← List.append_assoc]
    exact ih.perform hcmd

end Controller

/-! ## Observers -/

namespace Store

variable {s : Store} {h k : Handle} {p : Policy}

theorem observer_define : (s.define h p).observer k = s.observer k := by
  rw [observer, define, get?_modify, observer]
  split_ifs
  · cases s.get? k <;> rfl
  · rfl

theorem observer_observe_self (o : Observer) (hh : s.owns h = true) :
    (s.observe h o).observer h = some o := by
  obtain ⟨d, hd, -⟩ := owns_iff.1 hh
  rw [observer, observe, get?_modify, if_pos rfl, hd]
  rfl

theorem observer_observe (s : Store) (h k : Handle) (o : Observer) :
    (s.observe h o).observer k = some o ∨ (s.observe h o).observer k = s.observer k := by
  rw [observer, observe, get?_modify, observer]
  split_ifs
  · cases s.get? k with
    | none => exact .inr rfl
    | some d => exact .inl rfl
  · exact .inr rfl

/-- The stores gave out the same handles and agree on what they refer to. -/
structure SameDefinitions (s s' : Store) : Prop where
  owns : ∀ h, s'.owns h = s.owns h
  definition : ∀ h, s'.definition h = s.definition h

namespace SameDefinitions

variable {s' s'' : Store}

theorem trans (h : s.SameDefinitions s') (h' : s'.SameDefinitions s'') : s.SameDefinitions s'' where
  owns k := (h'.owns k).trans (h.owns k)
  definition k := (h'.definition k).trans (h.definition k)

theorem observe (s : Store) (h : Handle) (o : Observer) : s.SameDefinitions (s.observe h o) where
  owns _ := owns_modify (by simp)
  definition k := s.definition_watch h k o

theorem reading_eq {α : Type} {read : (Handle → α) → Policy → α} {stuck : α}
    (h : s.SameDefinitions s') (hread : Policy.Local read) :
    s'.reading read stuck p = s.reading read stuck p :=
  reading_congr hread (size_eq_of_owns h.owns) fun k _ => h.definition k

theorem covers (h : s.SameDefinitions s') (hp : s.Covers p) : s'.Covers p :=
  fun k hk => (h.owns k).trans (hp k hk)

theorem closed (h : s.SameDefinitions s') (hs : s.Closed) : s'.Closed := by
  intro k
  rw [h.definition]
  exact h.covers (hs k)

theorem acyclic (h : s.SameDefinitions s') (hs : s.Acyclic) : s'.Acyclic := by
  have hrefers : s'.Refers = s.Refers := by
    funext k j
    rw [Refers, Refers, h.definition]
  rwa [Acyclic, hrefers]

theorem keepsKinds (h : s.SameDefinitions s') (hs : s.KeepsKinds) : s'.KeepsKinds := by
  rw [keepsKinds_iff] at hs ⊢
  intro k hk hkind
  rw [h.definition]
  exact hs k (h.owns k ▸ hk) hkind

end SameDefinitions

end Store

namespace Controller

variable {c : Controller} {h : Handle} {table : String} {p : Policy} {t : Table}

theorem notify_of_recompile (hobserver : c.store.observer h = some (.recompile table p))
    (ht : c.store.compile {} p = .ok t) :
    c.notify h = (c.setTable table t, [.recompiled table t.size]) := by
  rw [notify, hobserver]
  simp [recompile, compile, ht, bind, Except.bind, pure, Except.pure]

/-- A new definition of a watched handle compiles the policy again, once. -/
theorem define_of_recompile {q : Policy}
    (hobserver : c.store.observer h = some (.recompile table p))
    (ht : (c.store.define h q).compile {} p = .ok t) :
    c.define h q = ({ c with store := c.store.define h q }.setTable table t,
      [.recompiled table t.size]) :=
  notify_of_recompile (Store.observer_define.trans hobserver) ht

theorem table?_setTable (c : Controller) (table name : String) (t : Table) :
    (c.setTable table t).table? name = if name = table then some t else c.table? name :=
  SortedMap.get?_insert _ _ _ _

/-- A table is only changed by an observer that compiles into it. -/
theorem table?_notify (hother : ∀ q, c.store.observer h ≠ some (.recompile table q)) :
    (c.notify h).1.table? table = c.table? table := by
  rw [notify]
  split
  · rfl
  · rfl
  · next name q hobserver =>
    have hname : table ≠ name := by
      rintro rfl
      exact hother q hobserver
    rw [recompile, compile]
    cases c.store.compile {} q with
    | error e => rfl
    | ok u => exact (table?_setTable c name table u).trans (if_neg hname)

/-! ## Watching a policy -/

/-- Nothing gets in the way of compiling the policy again: its handles are among those watched for
it, only this policy is compiled into the table, no definition is cyclic, and the policy has a
table. -/
structure Watched (table : String) (p : Policy) (watched : List Handle) (c : Controller) :
    Prop where
  attached : ∀ h ∈ watched, c.store.observer h = some (.recompile table p)
  alone : ∀ h q, c.store.observer h = some (.recompile table q) → q = p
  acyclic : c.store.Acyclic
  listed : ∀ h ∈ c.store.handles p, h ∈ watched
  compiles : ∃ t, c.store.compile {} p = .ok t

/-- The table in force is the one that the policy has now. -/
def Serves (table : String) (p : Policy) (c : Controller) : Prop :=
  ∃ t, c.table? table = some t ∧ c.store.compile {} p = .ok t

variable {watched : List Handle}

/-- Whatever a command does, the table is up to date again afterwards. -/
theorem Watched.serves (hwatched : c.Watched table p watched) (hc : c.Sound)
    (hp : c.store.Covers p) (hserves : c.Serves table p) {after : Controller × List Event}
    (hstep : Step c after) (hafter : after.1.Watched table p watched) :
    after.1.Serves table p := by
  obtain ⟨t, htable, hcompile⟩ := hserves
  have howned : ∀ k ∈ c.store.handles p, c.store.owns k = true :=
    fun k => hc.closed.owns_of_mem_handles hp
  cases hstep with
  | @quiet d hchange hdefs htables =>
    have hterm : d.store.term p = c.store.term p :=
      hwatched.acyclic.reading_grow hc.closed Policy.local_toTerm hp
        (Store.size_le_of_owns fun k => hchange.owns) fun k hk => hdefs k (howned k hk)
    refine ⟨t, ?_, ?_⟩
    · rwa [table?, htables]
    · rwa [Store.compile, hterm]
  | @define reactive h q howns hkind hcovers =>
    have hstore : ({ c with reactive : Controller }.define h q).1.store = c.store.define h q :=
      store_notify _ _
    by_cases hobserver : ∃ q', c.store.observer h = some (.recompile table q')
    · obtain ⟨q', hq'⟩ := hobserver
      obtain rfl := hwatched.alone h q' hq'
      obtain ⟨u, hu⟩ := hafter.compiles
      refine ⟨u, ?_, hu⟩
      rw [hstore] at hu
      have hdefine := define_of_recompile (c := { c with reactive := reactive }) hq' hu
      rw [hdefine, table?_setTable, if_pos rfl]
    · -- the handle is not watched, so the policy does not depend on it
      have hfree : ∀ k ∈ c.store.handles p, h.id ≠ k.id := by
        intro k hk hid
        obtain rfl := Store.eq_of_owns howns (howned k hk) hid
        exact hobserver ⟨p, hwatched.attached h (hwatched.listed h hk)⟩
      have hterm : (c.store.define h q).term p = c.store.term p :=
        Store.reading_congr Policy.local_toTerm (Store.size_modify _ _ _) fun k hk => by
          rw [Store.definition_define howns, if_neg (hfree k hk)]
      refine ⟨t, ?_, ?_⟩
      · rw [define, table?_notify]
        · exact htable
        · intro q' hq'
          rw [Store.observer_define] at hq'
          exact hobserver ⟨q', hq'⟩
      · rwa [hstore, Store.compile, hterm]

/-! ## Beginning to watch -/

theorem exists_of_run {d : Controller} (h : c.run table p = .ok (watched, d)) :
    ∃ t, c.store.compile {} p = .ok t ∧ watched = c.store.handles p ∧
      d = watched.foldl (fun c h => c.observe h (.recompile table p)) (c.setTable table t) := by
  rw [run, compile] at h
  cases hcompile : c.store.compile {} p with
  | error e =>
    rw [hcompile] at h
    cases h
  | ok t =>
    rw [hcompile] at h
    obtain ⟨rfl, rfl⟩ := Prod.mk.inj (Except.ok.inj h)
    exact ⟨t, rfl, rfl, rfl⟩

/-- What changes when one observer watches all handles of a list. -/
theorem foldl_observe (o : Observer) (hs : List Handle) (c : Controller) :
    ∃ s : Store, hs.foldl (fun c h => c.observe h o) c = { c with store := s } ∧
      c.store.SameDefinitions s ∧ (∀ k ∈ hs, c.store.owns k = true → s.observer k = some o) ∧
      ∀ k, s.observer k = some o ∨ s.observer k = c.store.observer k := by
  induction hs generalizing c with
  | nil => exact ⟨c.store, rfl, ⟨fun _ => rfl, fun _ => rfl⟩, by simp, by simp⟩
  | cons h hs ih =>
    obtain ⟨s, hfold, hsame, hlisted, hother⟩ := ih (c.observe h o)
    have hone : c.store.SameDefinitions (c.observe h o).store := .observe c.store h o
    refine ⟨s, hfold, hone.trans hsame, ?_, ?_⟩
    · intro k hk howns
      have howns' : (c.observe h o).store.owns k = true := (hone.owns k).trans howns
      rcases List.mem_cons.1 hk with rfl | hk
      · rcases hother k with hk | hk
        · exact hk
        · exact hk.trans (Store.observer_observe_self o howns)
      · exact hlisted k hk howns'
    · intro k
      rcases hother k with hk | hk
      · exact .inl hk
      · rw [hk]
        exact c.store.observer_observe h k o

/-- A policy that begins to be watched has its table in force, and nothing is in the way. -/
theorem Sound.run {d : Controller} (hc : c.Sound) (hp : c.store.Covers p)
    (hacyclic : c.store.Acyclic)
    (halone : ∀ h q, c.store.observer h = some (.recompile table q) → q = p)
    (h : c.run table p = .ok (watched, d)) :
    watched = c.store.handles p ∧ d.reactive = c.reactive ∧ d.Sound ∧ d.store.Covers p ∧
      d.Watched table p watched ∧ d.Serves table p := by
  obtain ⟨t, hcompile, rfl, rfl⟩ := exists_of_run h
  obtain ⟨s, hfold, hsame, hlisted, hother⟩ :=
    foldl_observe (.recompile table p) (c.store.handles p) (c.setTable table t)
  rw [hfold]
  have hterm : s.term p = c.store.term p := hsame.reading_eq Policy.local_toTerm
  have hhandles : s.handles p = c.store.handles p :=
    congrArg Policy.handlesIn (hsame.reading_eq Policy.local_parts)
  have hcompile' : s.compile {} p = .ok t := by rwa [Store.compile, hterm]
  refine ⟨rfl, rfl, ⟨hsame.keepsKinds hc.kinds, hsame.closed hc.closed, ?_⟩, hsame.covers hp,
    ⟨?_, ?_, hsame.acyclic hacyclic, ?_, t, hcompile'⟩, t, ?_, hcompile'⟩
  · intro r hr
    obtain ⟨howns, hkind⟩ := hc.reactive r hr
    exact ⟨(hsame.owns r.handle).trans howns, hkind⟩
  · intro k hk
    exact hlisted k hk (hc.closed.owns_of_mem_handles hp hk)
  · intro k q hq
    rcases hother k with hk | hk
    · rw [hk] at hq
      cases hq
      rfl
    · exact halone k q (hk.symm.trans hq)
  · intro k hk
    rwa [hhandles] at hk
  · exact (table?_setTable c table table t).trans (if_pos rfl)

/-- A run that leaves the watched policy alone keeps its table up to date. -/
theorem Run.serves {cmds : List Command} {d : Controller}
    (h : Run (Watched table p watched) c cmds d) (hc : c.Sound) (hp : c.store.Covers p)
    (hwatched : c.Watched table p watched) (hserves : c.Serves table p) :
    d.Watched table p watched ∧ d.Serves table p := by
  induction h with
  | nil => exact ⟨hwatched, hserves⟩
  | snoc hrun hcmd hgood ih =>
    have hsound := hrun.sound hc
    exact ⟨hgood, ih.1.serves hsound (hrun.covers hc hp) ih.2 (hsound.step hcmd) hgood⟩

/-- The table in force is always the one that the policy has now. Each new definition of a watched
handle compiles the policy again exactly once; a definition that is refused and a snapshot without
news do nothing. -/
theorem table_follows_policy {start c c' d : Controller} {before after : List Command}
    {table : String} {p : Policy} {watched : List Handle}
    (hstore : start.store.definitions = []) (hreactive : start.reactive = [])
    (hbefore : Run (fun _ => True) start before c) (hp : c.store.Covers p)
    (hacyclic : c.store.Acyclic)
    (halone : ∀ h q, c.store.observer h = some (.recompile table q) → q = p)
    (hrun : c.run table p = .ok (watched, c'))
    (hafter : Run (Watched table p watched) c' after d) :
    watched = c.store.handles p ∧
    (∃ t, d.table? table = some t ∧ d.store.compile {} p = .ok t) ∧
    (∀ h ∈ watched, ∀ q d' events, d.redefine h q = (.ok (), d', events) →
      ∀ t, d'.store.compile {} p = .ok t →
      d'.table? table = some t ∧ events = [.recompiled table t.size]) ∧
    (∀ h q e d' events, d.redefine h q = (.error e, d', events) → d' = d ∧ events = []) ∧
    ∀ i r t, d.reactive[i]? = some r →
      ((lastShown i (before ++ after)).map r.source.view = some (r.source.view t) →
        d.setNetwork i t = (d, [])) ∧
      ((lastShown i (before ++ after)).map r.source.view ≠ some (r.source.view t) →
        r.handle ∈ watched → ∀ u, (d.setNetwork i t).1.store.compile {} p = .ok u →
        (d.setNetwork i t).1.table? table = some u ∧
          (d.setNetwork i t).2 = [.recompiled table u.size]) := by
  have hc : c.Sound := hbefore.sound (sound_of_empty hstore hreactive)
  obtain ⟨hlist, hkept, hc', hp', hwatched', hserves'⟩ := hc.run hp hacyclic halone hrun
  obtain ⟨hwatched, hserves⟩ := hafter.serves hc' hp' hwatched' hserves'
  have hremembers : d.Remembers (before ++ after) := by
    have hbegun : c.Remembers before := hbefore.remembers (remembers_of_empty hreactive)
    apply hafter.remembers
    rwa [Remembers, hkept]
  have hdefine : ∀ (k : Controller), k.store = d.store → ∀ h ∈ watched, ∀ q t,
      (k.define h q).1.store.compile {} p = .ok t →
      (k.define h q).1.table? table = some t ∧ (k.define h q).2 = [.recompiled table t.size] := by
    intro k hk h hh q t ht
    have hobserver : k.store.observer h = some (.recompile table p) := by
      rw [hk]
      exact hwatched.attached h hh
    rw [define, store_notify] at ht
    rw [define_of_recompile hobserver ht]
    exact ⟨(table?_setTable _ _ _ _).trans (if_pos rfl), rfl⟩
  refine ⟨hlist, hserves, ?_, ?_, ?_⟩
  · intro h hh q d' events hok t ht
    rw [redefine_eq] at hok
    split_ifs at hok with hkind
    · cases (Prod.mk.inj hok).1
    · have hafter : d.define h q = (d', events) := (Prod.mk.inj hok).2
      have hdefined := hdefine d rfl h hh q t
      rw [hafter] at hdefined
      exact hdefined ht
  · intro h q e d' events he
    obtain ⟨-, hkind, hq⟩ := redefine_eq_error_iff.1 (congrArg Prod.fst he)
    rw [redefine_of_refused hkind hq] at he
    obtain ⟨rfl, rfl⟩ := Prod.mk.inj (Prod.mk.inj he).2
    exact ⟨rfl, rfl⟩
  · intro i r t hr
    have hlast : r.source.last? = (lastShown i (before ++ after)).map r.source.view := by
      simpa [hr] using hremembers i
    have hnews : (lastShown i (before ++ after)).map r.source.view = some (r.source.view t) ↔
        r.source.update t = none := by
      rw [← hlast, Reactive.update_eq_none_iff]
    rw [setNetwork_eq hr, ne_eq, hnews]
    cases r.source.update t with
    | none => simp
    | some u =>
      refine ⟨by simp, fun _ hmem v hv => ?_⟩
      exact hdefine { d with reactive := d.reactive.set i { r with source := u.2 } } rfl r.handle
        hmem u.1 v hv

/-- A policy behind a filter at the edge of the network; the network becomes known, which compiles
it again, and is then shown once more. -/
theorem table_follows_policy_edge :
    ∃ (c c' d : Controller) (p : Policy), p = .dynamic ⟨1, false⟩ ∧
      c = ((({} : Controller).perform (.createEdge .ingress)).1.perform
        (.create (.sequential [.dynamic ⟨0, true⟩, .forward 2]))).1 ∧
      c.run "main" p = .ok ([⟨1, false⟩, ⟨0, true⟩], c') ∧
      d = (c'.perform (.setNetwork 0 { egress := .singleton ⟨1, 2⟩ })).1 ∧
      d.table? "main" ≠ c'.table? "main" ∧
      (∃ t, d.table? "main" = some t ∧ d.store.compile {} p = .ok t) ∧
      d.setNetwork 0 { egress := .singleton ⟨1, 2⟩ } = (d, []) ∧
      ∃ t : Table, (d.perform (.redefine ⟨1, false⟩ .drop)).2 = [.recompiled "main" t.size] := by
  let p : Policy := .dynamic ⟨1, false⟩
  let body : Policy := .sequential [.dynamic ⟨0, true⟩, .forward 2]
  let topology : Topology := { egress := .singleton ⟨1, 2⟩ }
  let edge : Controller := (({} : Controller).perform (.createEdge .ingress)).1
  let c : Controller := (edge.perform (.create body)).1
  let c' : Controller := ((c.run "main" p).toOption.getD ([], c)).2
  let d : Controller := (c'.perform (.setNetwork 0 topology)).1
  have hrun : c.run "main" p = .ok ([⟨1, false⟩, ⟨0, true⟩], c') := by decide +kernel
  have hok : ∀ x : Except CompileError Table, x.toOption.isSome = true → ∃ t, x = .ok t := by
    rintro (e | t) h
    · cases h
    · exact ⟨t, rfl⟩
  have hbody : ∀ k, body.Mentions k → k = ⟨0, true⟩ := by
    simp [body, Policy.Mentions, Policy.ownParts, Policy.parts, Policy.partsOfAll]
  have hedge : edge.store.Covers body := by
    intro k hk
    rw [hbody k hk]
    rfl
  have hp : c.store.Covers p := by
    intro k hk
    rw [Policy.mentions_dynamic.1 hk]
    rfl
  have hacyclic : ∀ (f : Policy) (o o' : Option Observer), f.Settled →
      Store.Acyclic ⟨[⟨f, true, o⟩, ⟨body, false, o'⟩]⟩ := by
    intro f o o' hf
    apply Store.acyclic_of_lt
    rintro ⟨_ | _ | i, kind⟩ k hk
    · exact absurd hk (hf.not_mentions k)
    · rw [hbody k hk]
      exact Nat.zero_lt_one
    · exact absurd hk (Policy.Settled.drop.not_mentions k)
  have hobserver : ∀ h q, c.store.observer h = some (.recompile "main" q) → q = p := by
    rintro ⟨_ | _ | i, kind⟩ q hq <;> cases hq
  have hwatched : d.Watched "main" p [⟨1, false⟩, ⟨0, true⟩] := by
    have hstore : d.store = ⟨[⟨(edgeFilter .ingress topology.egress).policy, true,
        some (.recompile "main" p)⟩, ⟨body, false, some (.recompile "main" p)⟩]⟩ := by
      decide +kernel
    refine ⟨by decide +kernel, ?_, ?_, by decide +kernel, hok _ (by decide +kernel)⟩
    · rw [hstore]
      rintro ⟨_ | _ | i, kind⟩ q hq <;> cases hq
      · rfl
      · rfl
    · rw [hstore]
      exact hacyclic _ _ _ (settled_edgeFilter _ _)
  have hbefore : Run (fun _ => True) {} _ c := .snoc (.snoc .nil trivial trivial) hedge trivial
  have hafter : Run (Watched "main" p [⟨1, false⟩, ⟨0, true⟩]) c' _ d :=
    .snoc .nil (by decide +kernel : 0 < c'.reactive.length) hwatched
  obtain ⟨-, hserves, hlisted, -, hnetwork⟩ := table_follows_policy rfl rfl hbefore hp
    (hacyclic _ _ _ .drop) hobserver hrun hafter
  have hreactive : d.reactive[0]? = some ⟨⟨0, true⟩, .edge .ingress (some topology.egress)⟩ := by
    decide +kernel
  obtain ⟨t, ht⟩ := hok ((d.define ⟨1, false⟩ .drop).1.store.compile {} p) (by decide +kernel)
  have hredefine : d.redefine ⟨1, false⟩ .drop =
      (.ok (), (d.define ⟨1, false⟩ .drop).1, (d.define ⟨1, false⟩ .drop).2) := by
    rw [redefine_eq, if_neg (by simp)]
  refine ⟨c, c', d, p, rfl, rfl, hrun, rfl, by decide +kernel, hserves,
    (hnetwork 0 _ topology hreactive).1 rfl, t, ?_⟩
  have htold := (hlisted ⟨1, false⟩ (by simp) .drop _ _ hredefine t ht).2
  simpa only [perform, hredefine] using htold

end Controller

end PacketPolicy
