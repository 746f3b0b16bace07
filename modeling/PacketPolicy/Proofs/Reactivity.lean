import PacketPolicy.Proofs.Operators
import PacketPolicy.Proofs.Recompilation

/-!
# Reactive policies keep up with the network

A reactive policy has a handle of its own and remembers the part of the last snapshot that
matters to it. As long as nobody else gives that handle a definition, the handle refers at
all times to the policy made from the last snapshot, also after a snapshot without news,
for which nothing is made anew. Who watches the handle is told of each snapshot with news,
once, and of nothing else.
-/

namespace PacketPolicy

namespace Reactive

/-- The policy made from what is remembered; nothing passes before the first snapshot. -/
def policy : Reactive → Policy
  | .flood last => last.elim .drop SpanningTree.flood
  | .edge side last => last.elim .drop fun locations => (edgeFilter side locations).policy

/-- A policy of the same kind that remembers another snapshot, or none. -/
def recalling (r : Reactive) (last : Option Topology) : Reactive :=
  match r with
  | .flood _ => .flood (last.map Topology.tree)
  | .edge side _ => .edge side (last.map Topology.egress)

variable (r : Reactive) (last : Option Topology) (t : Topology)

theorem update_eq : r.update t =
    if r.last? = some (r.view t) then none else some ((r.next t).policy, r.next t) := by
  cases r with
  | flood last => by_cases h : last = some t.tree <;> simp [update, next, last?, view, policy, h]
  | edge side last =>
    by_cases h : last = some t.egress <;> simp [update, next, last?, view, policy, h]

theorem next_recalling : (r.recalling last).next t = r.recalling (some t) := by
  cases r <;> rw [recalling, next, update] <;> split_ifs with h
  · exact congrArg flood h
  · rfl
  · exact congrArg (edge _) h
  · rfl

theorem last?_recalling : (r.recalling last).last? = last.map r.view := by
  cases r <;> cases last <;> rfl

theorem view_recalling : (r.recalling last).view = r.view := by
  cases r <;> rfl

theorem settled_policy : r.policy.Settled := by
  cases r with
  | flood last =>
    cases last with
    | none => exact .drop
    | some tree => exact tree.settled_flood
  | edge side last =>
    cases last with
    | none => exact .drop
    | some locations => exact settled_edgeFilter side locations

end Reactive

/-! ## Which definition a command gives -/

/-- The handle that a command gives a definition, and that definition. -/
def Command.gives? (c : Controller) : Command → Option (Handle × Policy)
  | .redefine h p => if h.isFilter && !p.isFilter then none else some (h, p)
  | .setNetwork i t =>
    (c.reactive[i]?).bind fun r => (r.source.update t).map fun u => (r.handle, u.1)
  | _ => none

namespace Controller

variable {c d : Controller} {cmd : Command} {cmds : List Command} {h k : Handle} {p : Policy}
  {i : Nat} {r : Reactive} {t : Topology}

/-- Definitions are given by hand or by a snapshot with news. -/
theorem cases_of_gives? (hgives : cmd.gives? c = some (h, p)) :
    (cmd = .redefine h p ∧ ¬ (h.isFilter && !p.isFilter) = true) ∨
      ∃ j t s next, cmd = .setNetwork j t ∧ c.reactive[j]? = some s ∧ s.handle = h ∧
        s.source.update t = some (p, next) := by
  cases cmd with
  | redefine k q =>
    rw [Command.gives?] at hgives
    split_ifs at hgives with hkind
    obtain ⟨rfl, rfl⟩ := Prod.mk.inj (Option.some.inj hgives)
    exact .inl ⟨rfl, hkind⟩
  | setNetwork j t =>
    obtain ⟨s, hs, hmade⟩ := Option.bind_eq_some_iff.1 hgives
    obtain ⟨u, hu, hgiven⟩ := Option.map_eq_some_iff.1 hmade
    obtain ⟨rfl, rfl⟩ := Prod.mk.inj hgiven
    exact .inr ⟨j, t, s, u.2, rfl, hs, rfl, hu⟩
  | _ => cases hgives

theorem exists_perform_eq_define (hgives : cmd.gives? c = some (h, p)) :
    ∃ reactive, c.perform cmd = { c with reactive : Controller }.define h p := by
  obtain ⟨rfl, hkind⟩ | ⟨j, t, s, next, rfl, hs, rfl, hu⟩ := cases_of_gives? hgives
  · exact ⟨c.reactive, by rw [perform, redefine_eq, if_neg hkind]⟩
  · rw [perform, setNetwork_eq hs, hu]
    exact ⟨_, rfl⟩

/-- A command that gives no definition tells nobody, and handles refer to what they did. -/
theorem quiet_of_gives?_eq_none (hgives : cmd.gives? c = none) (hk : c.store.owns k = true) :
    (c.perform cmd).2 = [] ∧ (c.perform cmd).1.store.definition k = c.store.definition k := by
  cases cmd with
  | create | createFilter | createFlood | createEdge =>
    exact ⟨rfl, Store.definition_add_of_owns hk⟩
  | redefine h p =>
    rw [Command.gives?, ite_eq_left_iff] at hgives
    have hkind : (h.isFilter && !p.isFilter) = true := by
      by_contra hkind
      cases hgives hkind
    rw [perform, redefine_eq, if_pos hkind]
    exact ⟨rfl, rfl⟩
  | observe h o => exact ⟨rfl, c.store.definition_watch h k o⟩
  | unobserve h => exact ⟨rfl, c.store.definition_watch h k none⟩
  | setNetwork j t =>
    rw [perform]
    cases hs : c.reactive[j]? with
    | none =>
      rw [setNetwork, hs]
      exact ⟨rfl, rfl⟩
    | some s =>
      have hnews : s.source.update t = none := by simpa [Command.gives?, hs] using hgives
      rw [setNetwork_eq hs, hnews]
      exact ⟨rfl, rfl⟩

theorem Sound.owns_of_gives? (hc : c.Sound) (hcmd : cmd.Admissible c)
    (hgives : cmd.gives? c = some (h, p)) : c.store.owns h = true := by
  obtain ⟨rfl, -⟩ | ⟨j, t, s, next, rfl, hs, rfl, -⟩ := cases_of_gives? hgives
  · exact hcmd.1
  · exact (hc.reactive s (List.mem_of_getElem? hs)).1

/-! ## The handle of a reactive policy -/

/-- The handle belongs to the reactive policy of this number and to no other one, and refers to
the policy made from what is remembered. -/
structure Keeps (c : Controller) (i : Nat) (h : Handle) (r : Reactive) : Prop where
  listed : c.reactive[i]? = some ⟨h, r⟩
  alone : ∀ j s, c.reactive[j]? = some s → s.handle = h → j = i
  current : c.store.definition h = r.policy

theorem Keeps.owns (hkeeps : c.Keeps i h r) (hc : c.Sound) : c.store.owns h = true :=
  (hc.reactive _ (List.mem_of_getElem? hkeeps.listed)).1

/-- A new reactive policy has a new handle. -/
theorem Sound.keeps_new (hc : c.Sound) {kind : Bool} (hr : r.policy = .drop) :
    Keeps { c with
        store := c.store.add { policy := .drop, isFilter := kind },
        reactive := c.reactive ++ [⟨⟨c.store.size, kind⟩, r⟩] }
      c.reactive.length ⟨c.store.size, kind⟩ r where
  listed := by simp
  alone j s hs hhandle := by
    by_contra hne
    have hlt := (List.getElem?_eq_some_iff.1 hs).1
    rw [List.length_append, List.length_singleton] at hlt
    rw [List.getElem?_append_left (by omega)] at hs
    -- handles that were given out before have smaller numbers
    have hold := Store.id_lt_size_of_owns (hc.reactive s (List.mem_of_getElem? hs)).1
    rw [hhandle] at hold
    exact Nat.lt_irrefl _ hold
  current := by
    rw [Store.definition, Store.get?_add, if_pos rfl, hr]
    rfl

theorem Sound.createFlood (hc : c.Sound) : c.createFlood.2.2.Sound ∧
    c.createFlood.2.2.Keeps c.createFlood.1 c.createFlood.2.1 (.flood none) :=
  ⟨@Sound.perform c hc .createFlood trivial, hc.keeps_new rfl⟩

theorem Sound.createEdge (hc : c.Sound) (side : Side) : (c.createEdge side).2.2.Sound ∧
    (c.createEdge side).2.2.Keeps (c.createEdge side).1 (c.createEdge side).2.1
      (.edge side none) :=
  ⟨@Sound.perform c hc (.createEdge side) trivial, hc.keeps_new rfl⟩

namespace Keeps

theorem setNetwork_eq (hkeeps : c.Keeps i h r) (t : Topology) :
    c.setNetwork i t = if r.last? = some (r.view t) then (c, []) else
      { c with reactive := c.reactive.set i ⟨h, r.next t⟩ : Controller }.define h
        (r.next t).policy := by
  rw [Controller.setNetwork_eq hkeeps.listed, Reactive.update_eq]
  split_ifs <;> rfl

/-- A command that neither shows a snapshot to the policy nor redefines its handle leaves the
handle alone. -/
theorem id_ne_of_gives? (hkeeps : c.Keeps i h r) (hc : c.Sound) (hcmd : cmd.Admissible c)
    (hshown : cmd.snapshot? i = none) (hother : ∀ p, cmd ≠ .redefine h p)
    (hgives : cmd.gives? c = some (k, p)) : k.id ≠ h.id := by
  intro hid
  obtain rfl := Store.eq_of_owns (hc.owns_of_gives? hcmd hgives) (hkeeps.owns hc) hid
  obtain ⟨rfl, -⟩ | ⟨j, t, s, next, rfl, hs, hhandle, -⟩ := cases_of_gives? hgives
  · exact hother p rfl
  · obtain rfl := hkeeps.alone j s hs hhandle
    simp [Command.snapshot?] at hshown

theorem definition_perform (hkeeps : c.Keeps i h r) (hc : c.Sound) (hcmd : cmd.Admissible c)
    (hother : ∀ p, cmd ≠ .redefine h p) :
    (c.perform cmd).1.store.definition h = ((cmd.snapshot? i).elim r r.next).policy := by
  have howns := hkeeps.owns hc
  cases hshown : cmd.snapshot? i with
  | none =>
    cases hgives : cmd.gives? c with
    | none => exact (quiet_of_gives?_eq_none hgives howns).2.trans hkeeps.current
    | some given =>
      obtain ⟨reactive, hperform⟩ := exists_perform_eq_define hgives
      have hgiven := hc.owns_of_gives? hcmd hgives
      have hid := hkeeps.id_ne_of_gives? hc hcmd hshown hother hgives
      rw [hperform, define, store_notify, Store.definition_define hgiven, if_neg hid]
      exact hkeeps.current
  | some t =>
    obtain rfl : cmd = .setNetwork i t := by
      cases cmd <;> simp_all [Command.snapshot?]
    rw [Controller.perform, hkeeps.setNetwork_eq t]
    split_ifs with hknown
    · rw [hkeeps.current, Option.elim_some, Reactive.next, Reactive.update_eq, if_pos hknown]
      rfl
    · rw [define, store_notify, Store.definition_define howns, if_pos rfl]
      rfl

/-- One command keeps the handle up to date. -/
theorem perform (hkeeps : c.Keeps i h r) (hc : c.Sound) (hcmd : cmd.Admissible c)
    (hother : ∀ p, cmd ≠ .redefine h p) :
    (c.perform cmd).1.Keeps i h ((cmd.snapshot? i).elim r r.next) where
  listed := by
    rw [reactive_perform]
    have hlt : i < c.reactive.length := (List.getElem?_eq_some_iff.1 hkeeps.listed).1
    cases cmd with
    | createFlood | createEdge => exact (List.getElem?_append_left hlt).trans hkeeps.listed
    | setNetwork j t =>
      rw [List.getElem?_modify, hkeeps.listed]
      by_cases hj : j = i <;> simp [Command.snapshot?, hj]
    | _ => exact hkeeps.listed
  alone j s hs hhandle := by
    rw [reactive_perform] at hs
    have hnew : ∀ x : ReactivePolicy, x.handle.id = c.store.size →
        (c.reactive ++ [x])[j]? = some s → j = i := by
      intro x hx hs
      rw [List.getElem?_append] at hs
      split_ifs at hs with hlt
      · exact hkeeps.alone j s hs hhandle
      · obtain rfl := List.mem_singleton.1 (List.mem_of_getElem? hs)
        have hold := Store.id_lt_size_of_owns (hkeeps.owns hc)
        rw [← hhandle] at hold
        omega
    cases cmd with
    | createFlood | createEdge => exact hnew _ rfl hs
    | setNetwork k t =>
      rw [List.getElem?_modify] at hs
      obtain ⟨x, hx, rfl⟩ := Option.map_eq_some_iff.1 hs
      refine hkeeps.alone j x hx ?_
      split_ifs at hhandle <;> exact hhandle
    | _ => exact hkeeps.alone j s hs hhandle
  current := hkeeps.definition_perform hc hcmd hother

end Keeps

/-- After any run in which nobody else gives the handle a definition, the policy remembers the last
snapshot that was shown to it. -/
theorem Run.keeps {Good : Controller → Prop} (hrun : Run Good c cmds d) (hc : c.Sound)
    (hkeeps : c.Keeps i h (r.recalling none)) (hother : ∀ p, .redefine h p ∉ cmds) :
    d.Keeps i h (r.recalling (lastShown i cmds)) := by
  induction hrun with
  | nil => exact hkeeps
  | @snoc cmds d cmd hrun hcmd _ ih =>
    have hstep := (ih fun p hp => hother p (List.mem_append_left _ hp)).perform (hrun.sound hc) hcmd
      fun p hp => hother p (by simp [hp])
    rw [lastShown_snoc]
    cases hshown : cmd.snapshot? i with
    | none => simpa [hshown] using hstep
    | some t => simpa [hshown, Reactive.next_recalling] using hstep

/-! ## What is made of a packet -/

end Controller

/-- A handle reads as its definition, if that refers to no handle. -/
theorem Store.term_dynamic_of_settled {s : Store} {h : Handle} (howns : s.owns h = true)
    (hsettled : (s.definition h).Settled) : s.term (.dynamic h) = s.term (s.definition h) := by
  obtain ⟨depth, hdepth⟩ := Nat.exists_eq_add_one_of_ne_zero
    (Nat.ne_zero_of_lt (Store.id_lt_size_of_owns howns))
  have hunfold : s.term (.dynamic h) = s.unfold Policy.toTerm .drop s.size h := rfl
  rw [hunfold, term, reading, hdepth, unfold]
  exact Policy.local_toTerm _ fun k hk => absurd hk (hsettled.not_mentions k)

/-- The table of a term that sets no other headers gives what the term gives. -/
theorem Term.Compiles.outputs_lookup {k : CompileSettings} {t : Term} {a : Table}
    (h : Compiles k t a) (hwithin : t.restrict k.headers = t) (pkt : Packet) :
    (a.lookup pkt).map Table.Report.outputs = .ok (t.eval pkt).outputs := by
  apply h.regular.total.outputs_lookup
  intro q
  rw [h.passes, hwithin]

namespace Controller

variable {c d : Controller} {cmd : Command} {h : Handle} {p : Policy} {i : Nat} {r : Reactive}
  {last : Option Topology}

theorem Keeps.term_eq (hkeeps : c.Keeps i h r) (hc : c.Sound) :
    c.store.term (.dynamic h) = c.store.term r.policy := by
  rw [Store.term_dynamic_of_settled (hkeeps.owns hc), hkeeps.current]
  rw [hkeeps.current]
  exact r.settled_policy

theorem Keeps.outcome_eq (hkeeps : c.Keeps i h r) (hc : c.Sound) (o : Schedule) :
    c.outcome o (.dynamic h) =
      r.policy.effect (c.store.unfold Policy.toTerm .drop c.store.size) := by
  funext pkt
  rw [Controller.outcome_eq, Store.eval, hkeeps.term_eq hc]
  rfl

/-! ## Who is told -/

/-- Who watches the handle of a reactive policy is told of each snapshot with news, once, and of
no other snapshot or command. -/
structure Announces (c : Controller) (i : Nat) (h : Handle) (known : Topology → Prop)
    (made : Topology → Policy) : Prop where
  /-- A snapshot without news does nothing at all. -/
  repeated : ∀ t, known t → c.setNetwork i t = (c, [])
  unwatched : ∀ t, c.store.observer h = none → (c.setNetwork i t).2 = []
  once : ∀ t o, ¬ known t → c.store.observer h = some o → ∃ e, (c.setNetwork i t).2 = [e] ∧
    ∀ tag, o = .log tag →
      e = .redefined tag ((c.setNetwork i t).1.store.render (made t))
  /-- A tag that is used for this handle alone is not heard of by any other command. -/
  otherwise : ∀ cmd : Command, cmd.Admissible c → cmd.snapshot? i = none →
    (∀ p, cmd ≠ .redefine h p) → ∀ tag,
    (∀ k : Handle, k.id ≠ h.id → c.store.observer k ≠ some (.log tag)) →
    ∀ text, .redefined tag text ∉ (c.perform cmd).2

/-- A new definition is told to the observer of its handle, and to nobody else. -/
theorem events_define (howns : c.store.owns h = true) :
    match c.store.observer h with
    | none => (c.define h p).2 = []
    | some (.log tag) =>
      (c.define h p).2 = [.redefined tag ((c.define h p).1.store.render p)]
    | some (.recompile _ _) =>
      ∃ e, (c.define h p).2 = [e] ∧ ∀ tag text, e ≠ .redefined tag text := by
  have hobserver : (c.store.define h p).observer h = c.store.observer h := Store.observer_define
  rw [define, notify, hobserver]
  cases c.store.observer h with
  | none => rfl
  | some o =>
    cases o with
    | log tag =>
      dsimp only
      rw [Store.definition_define howns, if_pos rfl]
    | recompile table q =>
      dsimp only
      rw [recompile, compile]
      cases (c.store.define h p).compile {} q with
      | error e => exact ⟨.outdated table e, rfl, by simp⟩
      | ok t => exact ⟨.recompiled table t.size, rfl, by simp⟩

theorem not_mem_events_define (howns : c.store.owns h = true) {tag : String}
    (htag : c.store.observer h ≠ some (.log tag)) (text : String) :
    .redefined tag text ∉ (c.define h p).2 := by
  have hevents := events_define (p := p) howns
  cases hobserver : c.store.observer h with
  | none =>
    rw [hobserver] at hevents
    rw [hevents]
    exact List.not_mem_nil
  | some o =>
    rw [hobserver] at hevents
    cases o with
    | log other =>
      have hne : tag ≠ other := by
        rintro rfl
        exact htag hobserver
      rw [hevents]
      simp [hne]
    | recompile table q =>
      obtain ⟨e, he, hother⟩ := hevents
      rw [he, List.mem_singleton]
      exact fun heq => hother tag text heq.symm

theorem Keeps.setNetwork_recalling (hkeeps : c.Keeps i h (r.recalling last)) (t : Topology) :
    c.setNetwork i t = if last.map r.view = some (r.view t) then (c, []) else
      { c with reactive := c.reactive.set i ⟨h, r.recalling (some t)⟩ : Controller }.define h
        (r.recalling (some t)).policy := by
  rw [hkeeps.setNetwork_eq, Reactive.last?_recalling, Reactive.view_recalling,
    Reactive.next_recalling]

theorem Keeps.announces (hkeeps : c.Keeps i h (r.recalling last)) (hc : c.Sound) :
    c.Announces i h (fun t => last.map r.view = some (r.view t))
      fun t => (r.recalling (some t)).policy where
  repeated t hknown := by rw [hkeeps.setNetwork_recalling, if_pos hknown]
  unwatched t hnone := by
    rw [hkeeps.setNetwork_recalling]
    split_ifs
    · rfl
    · have hevents := events_define
        (c := { c with reactive := c.reactive.set i ⟨h, r.recalling (some t)⟩ })
        (p := (r.recalling (some t)).policy) (hkeeps.owns hc)
      rwa [hnone] at hevents
  once t o hnews hobserver := by
    rw [hkeeps.setNetwork_recalling, if_neg hnews]
    have hevents := events_define
      (c := { c with reactive := c.reactive.set i ⟨h, r.recalling (some t)⟩ })
      (p := (r.recalling (some t)).policy) (hkeeps.owns hc)
    rw [hobserver] at hevents
    cases o with
    | log tag =>
      refine ⟨_, hevents, ?_⟩
      rintro _ ⟨⟩
      rfl
    | recompile table p =>
      obtain ⟨e, he, -⟩ := hevents
      exact ⟨e, he, by simp⟩
  otherwise cmd hcmd hshown hother tag htag text := by
    cases hgives : cmd.gives? c with
    | none =>
      rw [(quiet_of_gives?_eq_none hgives (hkeeps.owns hc)).1]
      exact List.not_mem_nil
    | some given =>
      obtain ⟨reactive, hperform⟩ := exists_perform_eq_define hgives
      have htold := htag _ (hkeeps.id_ne_of_gives? hc hcmd hshown hother hgives)
      rw [hperform]
      exact not_mem_events_define (c := { c with reactive := reactive })
        (hc.owns_of_gives? hcmd hgives) htold text

end Controller

end PacketPolicy
