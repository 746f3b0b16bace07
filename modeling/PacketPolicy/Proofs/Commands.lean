import PacketPolicy.Controller.State
import PacketPolicy.Proofs.SettledPolicies
import PacketPolicy.Proofs.Unfolding

/-!
# Runs of a controller

Commands make handles, give them new definitions, watch them, and show snapshots of the
network to the policies that follow it. What a command can do is said once, by
`Controller.Step`, and what this can do to the store by `Store.Change`; an invariant of
the store is then a case analysis of four cases. From what one command preserves follows
what a run of any length preserves.
-/

namespace PacketPolicy

/-! ## Changes of a store -/

namespace Store

variable {s s' : Store} {h k : Handle} {p : Policy} {d : Definition}

/-- The store with one more definition. -/
def add (s : Store) (d : Definition) : Store := ⟨s.definitions ++ [d]⟩

theorem get?_add (s : Store) (d : Definition) (k : Handle) :
    (s.add d).get? k = if k.id = s.size then some d else s.get? k := by
  rw [get?, add, List.getElem?_append, get?, size]
  split_ifs with hlt heq heq
  · omega
  · rfl
  · simp [heq]
  · rw [List.getElem?_eq_none (by simp; omega), List.getElem?_eq_none (by omega)]

theorem get?_modify (s : Store) (h k : Handle) (f : Definition → Definition) :
    (s.modify h f).get? k = if h.id = k.id then (s.get? k).map f else s.get? k := by
  rw [get?, modify, List.getElem?_modify, get?]
  split_ifs <;> simp

theorem size_modify (s : Store) (h : Handle) (f : Definition → Definition) :
    (s.modify h f).size = s.size := List.length_modify _ _ _

theorem owns_modify {f : Definition → Definition} (hf : ∀ d, (f d).isFilter = d.isFilter) :
    (s.modify h f).owns k = s.owns k := by
  rw [owns, owns, get?_modify]
  split_ifs
  · simp [Option.any_map, hf]
  · rfl

theorem owns_add_new (s : Store) (d : Definition) :
    (s.add d).owns ⟨s.size, d.isFilter⟩ = true := by
  rw [owns, get?_add, if_pos rfl]
  exact beq_self_eq_true _

theorem owns_add (hk : s.owns k = true) : (s.add d).owns k = true := by
  have hlt := id_lt_size_of_owns hk
  rw [owns, get?_add, if_neg (by omega)]
  exact hk

theorem definition_add_of_owns (hk : s.owns k = true) :
    (s.add d).definition k = s.definition k := by
  have hlt := id_lt_size_of_owns hk
  rw [definition, get?_add, if_neg (by omega), definition]

theorem definition_define (hh : s.owns h = true) :
    (s.define h p).definition k = if h.id = k.id then p else s.definition k := by
  rw [definition, define, get?_modify]
  split_ifs with hid
  · obtain ⟨d, hd, -⟩ := owns_iff.1 hh
    have hget : s.get? k = some d := by rwa [get?, ← hid]
    rw [hget]
    rfl
  · rfl

theorem definition_watch (s : Store) (h k : Handle) (o : Option Observer) :
    (s.modify h ({ · with observer := o })).definition k = s.definition k := by
  rw [definition, get?_modify, definition]
  split_ifs
  · cases s.get? k <;> rfl
  · rfl

/-- A handle given out by the store is known by its number. -/
theorem eq_of_owns (hh : s.owns h = true) (hk : s.owns k = true) (hid : h.id = k.id) : h = k := by
  obtain ⟨d, hd, hkind⟩ := owns_iff.1 hh
  obtain ⟨e, he, hkind'⟩ := owns_iff.1 hk
  have hde : d = e := by
    rw [get?, hid] at hd
    exact Option.some.inj (hd.symm.trans he)
  obtain ⟨i, b⟩ := h
  obtain ⟨j, b'⟩ := k
  simp_all

/-- What can happen to a store: nothing, a new definition, another definition for a handle, or
another observer. Handles for filters get filters, and definitions mention known handles. -/
inductive Change (s : Store) : Store → Prop
  | stay : Change s s
  | add {d : Definition} (hkind : d.isFilter = true → d.policy.isFilter = true)
      (hcovers : s.Covers d.policy) : Change s (s.add d)
  | define {h : Handle} {p : Policy} (howns : s.owns h = true)
      (hkind : h.isFilter = true → p.isFilter = true) (hcovers : s.Covers p) :
      Change s (s.define h p)
  | watch (h : Handle) (o : Option Observer) : Change s (s.modify h ({ · with observer := o }))

namespace Change

theorem owns (hchange : s.Change s') (hk : s.owns k = true) : s'.owns k = true := by
  cases hchange with
  | stay => exact hk
  | add => exact owns_add hk
  | define => exact (owns_modify (by simp)).trans hk
  | watch => exact (owns_modify (by simp)).trans hk

theorem covers (hchange : s.Change s') (hp : s.Covers p) : s'.Covers p :=
  fun h hh => hchange.owns (hp h hh)

theorem keepsKinds (hchange : s.Change s') (hs : s.KeepsKinds) : s'.KeepsKinds := by
  rw [keepsKinds_iff] at hs ⊢
  intro k hk hkind
  cases hchange with
  | stay => exact hs k hk hkind
  | @add d hd =>
    rw [Store.owns, get?_add] at hk
    rw [definition, get?_add]
    split_ifs at hk ⊢
    · have hsame : d.isFilter = k.isFilter := by simpa using hk
      exact hd (hsame.trans hkind)
    · exact hs k hk hkind
  | @define h p howns hp =>
    rw [Store.define, owns_modify (by simp)] at hk
    rw [definition_define howns]
    split_ifs with hid
    · obtain rfl := eq_of_owns howns hk hid
      exact hp hkind
    · exact hs k hk hkind
  | watch h o =>
    rw [owns_modify (by simp)] at hk
    rw [definition_watch]
    exact hs k hk hkind

theorem closed (hchange : s.Change s') (hs : s.Closed) : s'.Closed := by
  intro k
  refine hchange.covers ?_
  cases hchange with
  | stay => exact hs k
  | @add d _ hd =>
    rw [definition, get?_add]
    split_ifs
    · exact hd
    · exact hs k
  | @define h p howns _ hp =>
    rw [definition_define howns]
    split_ifs
    · exact hp
    · exact hs k
  | watch h o =>
    rw [definition_watch]
    exact hs k

end Change

end Store

/-! ## Policies that follow the network -/

namespace Policy.Settled

theorem not_mentions {p : Policy} (hp : p.Settled) (h : Handle) : ¬ p.Mentions h :=
  fun hh => hp _ _ hh

theorem covers {p : Policy} (hp : p.Settled) (s : Store) : s.Covers p :=
  fun h hh => absurd hh (hp.not_mentions h)

end Policy.Settled

theorem SpanningTree.settled_flood (t : SpanningTree) : t.flood.Settled := by
  refine .parallelOf (List.forall_mem_map.2 fun n _ => .andThen (.test _) ?_)
  exact .parallelOf (List.forall_mem_map.2 fun port _ => .exclusive port)

theorem settled_edgeFilter (side : Side) (locations : SortedSet Location) :
    (edgeFilter side locations).policy.Settled :=
  .unionOf (List.forall_mem_map.2 fun _ _ => .test _)

namespace Reactive

/-- The policy is a filter at the edge of the network. -/
def isEdge : Reactive → Bool
  | .flood _ => false
  | .edge _ _ => true

/-- An update keeps the kind of the policy and mentions no handle. -/
theorem update_spec {r r' : Reactive} {t : Topology} {p : Policy}
    (h : r.update t = some (p, r')) :
    r'.isEdge = r.isEdge ∧ (r.isEdge = true → p.isFilter = true) ∧ p.Settled := by
  cases r with
  | flood last =>
    rw [update] at h
    split_ifs at h
    obtain ⟨rfl, rfl⟩ := Prod.mk.inj (Option.some.inj h)
    exact ⟨rfl, by simp [isEdge], t.tree.settled_flood⟩
  | edge side last =>
    rw [update] at h
    split_ifs at h
    obtain ⟨rfl, rfl⟩ := Prod.mk.inj (Option.some.inj h)
    exact ⟨rfl, fun _ => (edgeFilter side t.egress).isFilter, settled_edgeFilter side t.egress⟩

/-- The policy after a snapshot. -/
def next (r : Reactive) (t : Topology) : Reactive := (r.update t).elim r Prod.snd

theorem isEdge_next (r : Reactive) (t : Topology) : (r.next t).isEdge = r.isEdge := by
  rw [next]
  cases h : r.update t with
  | none => rfl
  | some u => exact (update_spec h).1

end Reactive

/-! ## Commands -/

/-- What may be asked of a controller. -/
inductive Command where
  | create (p : Policy)
  | createFilter (f : Filter)
  | redefine (h : Handle) (p : Policy)
  | observe (h : Handle) (o : Observer)
  | unobserve (h : Handle)
  | createFlood
  | createEdge (side : Side)
  | setNetwork (i : Nat) (t : Topology)

/-- The command speaks of handles and reactive policies that there are. -/
def Command.Admissible (c : Controller) : Command → Prop
  | .create p => c.store.Covers p
  | .createFilter f => c.store.Covers f.policy
  | .redefine h p => c.store.owns h = true ∧ c.store.Covers p
  | .observe _ _ | .unobserve _ | .createFlood | .createEdge _ => True
  | .setNetwork i _ => i < c.reactive.length

namespace Controller

/-- The next state and what others are told. -/
def perform (c : Controller) : Command → Controller × List Event
  | .create p => ((c.create p).2, [])
  | .createFilter f => ((c.createFilter f).2, [])
  | .redefine h p => (c.redefine h p).2
  | .observe h o => (c.observe h o, [])
  | .unobserve h => (c.unobserve h, [])
  | .createFlood => (c.createFlood.2.2, [])
  | .createEdge side => ((c.createEdge side).2.2, [])
  | .setNetwork i t => c.setNetwork i t

variable {c : Controller} {h : Handle} {p : Policy}

/-- Telling an observer changes nothing but a table. -/
theorem notify_eq (c : Controller) (h : Handle) :
    (c.notify h).1 = { c with tables := (c.notify h).1.tables } := by
  unfold notify
  split
  · rfl
  · rfl
  · next table p _ =>
    rw [recompile, compile]
    cases c.store.compile {} p <;> rfl

@[simp] theorem store_notify (c : Controller) (h : Handle) : (c.notify h).1.store = c.store := by
  rw [notify_eq]

@[simp] theorem reactive_notify (c : Controller) (h : Handle) :
    (c.notify h).1.reactive = c.reactive := by
  rw [notify_eq]

theorem redefine_eq (c : Controller) (h : Handle) (p : Policy) :
    c.redefine h p =
      if h.isFilter && !p.isFilter then (.error (.notAFilter p), c, [])
      else (.ok (), c.define h p) := by
  rw [redefine, Store.redefine]
  split_ifs <;> rfl

/-- A redefinition is refused exactly if it would give a handle for filters something else. -/
theorem redefine_eq_error_iff {e : PolicyError} : (c.redefine h p).1 = .error e ↔
    e = .notAFilter p ∧ h.isFilter = true ∧ p.isFilter = false := by
  rw [redefine_eq]
  split_ifs with hkind
  · simp only [Bool.and_eq_true, Bool.not_eq_true'] at hkind
    simp [hkind, eq_comm]
  · simp only [Bool.and_eq_true, Bool.not_eq_true', not_and] at hkind
    simp only [false_iff, not_and]
    exact fun _ => hkind

/-- The check comes before the change: a definition that is refused leaves the controller as it
is. -/
theorem redefine_of_refused (hkind : h.isFilter = true) (hp : p.isFilter = false) :
    c.redefine h p = (.error (.notAFilter p), c, []) :=
  (redefine_eq c h p).trans (if_pos (by simp [hkind, hp]))

theorem setNetwork_eq {i : Nat} {r : ReactivePolicy} {t : Topology} (hr : c.reactive[i]? = some r) :
    c.setNetwork i t = (r.source.update t).elim (c, []) fun (p, source) =>
      { c with reactive := c.reactive.set i { r with source } : Controller }.define r.handle p := by
  rw [setNetwork, hr]
  dsimp only
  cases r.source.update t <;> rfl

/-! ## What commands preserve -/

/-- Handles for filters hold filters, also those of reactive policies, and all handles are known. -/
structure Sound (c : Controller) : Prop where
  kinds : c.store.KeepsKinds
  closed : c.store.Closed
  reactive : ∀ r ∈ c.reactive, c.store.owns r.handle = true ∧ r.handle.isFilter = r.source.isEdge

theorem sound_of_empty (hstore : c.store.definitions = []) (hreactive : c.reactive = []) :
    c.Sound where
  kinds := by simp [Store.KeepsKinds, hstore]
  closed h := by
    have hdrop : c.store.definition h = .drop := by simp [Store.definition, Store.get?, hstore]
    rw [hdrop]
    exact Policy.Settled.drop.covers _
  reactive := by simp [hreactive]

/-- What a command can do: leave all definitions as they are and tell nobody, or give one handle
another definition and tell its observer. -/
inductive Step (c : Controller) : Controller × List Event → Prop
  | quiet {d : Controller} (hchange : c.store.Change d.store)
      (hsame : ∀ k, c.store.owns k = true → d.store.definition k = c.store.definition k)
      (htables : d.tables = c.tables) : Step c (d, [])
  | define {reactive : List ReactivePolicy} {h : Handle} {p : Policy}
      (howns : c.store.owns h = true) (hkind : h.isFilter = true → p.isFilter = true)
      (hcovers : c.store.Covers p) : Step c ({ c with reactive : Controller }.define h p)

theorem Step.stay (c : Controller) : Step c (c, []) := .quiet .stay (fun _ _ => rfl) rfl

theorem Step.change {after : Controller × List Event} (h : Step c after) :
    c.store.Change after.1.store := by
  cases h with
  | quiet hchange => exact hchange
  | define howns hkind hcovers => simpa [Controller.define] using .define howns hkind hcovers

theorem Sound.step (hc : c.Sound) {cmd : Command} (hcmd : cmd.Admissible c) :
    Step c (c.perform cmd) := by
  have hdrop : c.store.Covers .drop := Policy.Settled.drop.covers _
  cases cmd with
  | create p => exact .quiet (.add (by simp) hcmd) (fun _ => Store.definition_add_of_owns) rfl
  | createFilter f =>
    exact .quiet (.add (fun _ => f.isFilter) hcmd) (fun _ => Store.definition_add_of_owns) rfl
  | redefine h p =>
    rw [perform, redefine_eq]
    split_ifs with hkind
    · exact .stay c
    · simp only [Bool.and_eq_true, Bool.not_eq_true', not_and, Bool.not_eq_false] at hkind
      exact .define hcmd.1 hkind hcmd.2
  | observe h o => exact .quiet (.watch h o) (fun k _ => c.store.definition_watch h k o) rfl
  | unobserve h => exact .quiet (.watch h none) (fun k _ => c.store.definition_watch h k none) rfl
  | createFlood => exact .quiet (.add (by simp) hdrop) (fun _ => Store.definition_add_of_owns) rfl
  | createEdge side =>
    exact .quiet (.add (fun _ => rfl) hdrop) (fun _ => Store.definition_add_of_owns) rfl
  | setNetwork i t =>
    obtain ⟨howns, hkind⟩ := hc.reactive _ (List.getElem_mem hcmd)
    rw [perform, setNetwork_eq (List.getElem?_eq_getElem hcmd)]
    cases hu : c.reactive[i].source.update t with
    | none => exact .stay c
    | some u =>
      obtain ⟨-, hfilter, hsettled⟩ := Reactive.update_spec hu
      exact .define howns (fun hf => hfilter (hkind.symm.trans hf)) (hsettled.covers _)

/-- What a command does to the reactive policies. -/
theorem reactive_perform (c : Controller) (cmd : Command) :
    (c.perform cmd).1.reactive = match cmd with
      | .createFlood => c.reactive ++ [⟨⟨c.store.size, false⟩, .flood none⟩]
      | .createEdge side => c.reactive ++ [⟨⟨c.store.size, true⟩, .edge side none⟩]
      | .setNetwork i t => c.reactive.modify i fun r => { r with source := r.source.next t }
      | _ => c.reactive := by
  cases cmd with
  | redefine h p =>
    rw [perform, redefine_eq]
    split_ifs
    · rfl
    · simp [define]
  | setNetwork i t =>
    dsimp only
    rw [perform, List.modify_eq_set_getElem?]
    cases hr : c.reactive[i]? with
    | none =>
      rw [setNetwork, hr]
      rfl
    | some r =>
      change _ = c.reactive.set i { r with source := r.source.next t }
      rw [setNetwork_eq hr, Reactive.next]
      cases r.source.update t with
      | none =>
        obtain ⟨hlt, rfl⟩ := List.getElem?_eq_some_iff.1 hr
        exact (List.set_getElem_self hlt).symm
      | some u => simp [define]
  | _ => rfl

theorem Sound.perform (hc : c.Sound) {cmd : Command} (hcmd : cmd.Admissible c) :
    (c.perform cmd).1.Sound := by
  have hchange := (hc.step hcmd).change
  refine ⟨hchange.keepsKinds hc.kinds, hchange.closed hc.closed, ?_⟩
  have hold : ∀ r ∈ c.reactive, (c.perform cmd).1.store.owns r.handle = true ∧
      r.handle.isFilter = r.source.isEdge :=
    fun r hr => ⟨hchange.owns (hc.reactive r hr).1, (hc.reactive r hr).2⟩
  rw [reactive_perform]
  cases cmd with
  | createFlood =>
    have hnew := Store.owns_add_new c.store { policy := .drop, isFilter := false }
    exact List.forall_mem_append.2 ⟨hold, List.forall_mem_singleton.2 ⟨hnew, rfl⟩⟩
  | createEdge side =>
    have hnew := Store.owns_add_new c.store { policy := .drop, isFilter := true }
    exact List.forall_mem_append.2 ⟨hold, List.forall_mem_singleton.2 ⟨hnew, rfl⟩⟩
  | setNetwork i t =>
    intro r hr
    obtain ⟨j, hj⟩ := List.mem_iff_getElem?.1 hr
    rw [List.getElem?_modify] at hj
    obtain ⟨r, hget, rfl⟩ := Option.map_eq_some_iff.1 hj
    have hmem := List.mem_of_getElem? hget
    split_ifs
    · rw [Reactive.isEdge_next]
      exact hold r hmem
    · exact hold r hmem
  | _ => exact hold

/-- The commands lead from one controller to another, each admissible where it is given, and each
state that they lead through is good. -/
inductive Run (Good : Controller → Prop) (c : Controller) : List Command → Controller → Prop
  | nil : Run Good c [] c
  | snoc {cmds : List Command} {d : Controller} {cmd : Command} : Run Good c cmds d →
      cmd.Admissible d → Good (d.perform cmd).1 → Run Good c (cmds ++ [cmd]) (d.perform cmd).1

namespace Run

variable {Good : Controller → Prop} {d : Controller} {cmds : List Command}

theorem sound (h : Run Good c cmds d) (hc : c.Sound) : d.Sound := by
  induction h with
  | nil => exact hc
  | snoc _ hcmd _ ih => exact ih.perform hcmd

/-- A handle stays what it was given out for. -/
theorem owns (h : Run Good c cmds d) (hc : c.Sound) {k : Handle} (hk : c.store.owns k = true) :
    d.store.owns k = true := by
  induction h with
  | nil => exact hk
  | snoc hrun hcmd _ ih => exact ((hrun.sound hc).step hcmd).change.owns ih

theorem covers (h : Run Good c cmds d) (hc : c.Sound) (hp : c.store.Covers p) :
    d.store.Covers p :=
  fun k hk => h.owns hc (hp k hk)

end Run

end Controller

end PacketPolicy
