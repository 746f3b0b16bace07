import PacketPolicy.Proofs.Commands

/-!
# Filters stay filters

Whether a policy is a filter is checked once, but what its handles refer to goes on
changing. No run of commands ever gives a handle for filters anything else, so a filter
passes packets on or drops them, reaches no sink and has a table, and so has its
negation, in every state that comes after it was made.
-/

namespace PacketPolicy

theorem SortedSet.eq_empty_or_eq_singleton {κ : Type} [Ord κ] [Std.TransOrd κ] [Std.LawfulEqOrd κ]
    {s : SortedSet κ} {x : κ} (h : ∀ a ∈ s, a = x) : s = .empty ∨ s = .singleton x := by
  by_cases hx : x ∈ s
  · right
    apply ext_mem
    intro a
    rw [mem_singleton]
    constructor
    · exact h a
    · rintro rfl
      exact hx
  · left
    apply ext_mem
    intro a
    refine iff_of_false (fun ha => hx ?_) (not_mem_empty a)
    rwa [← h a ha]

/-- A filter passes the packet on or drops it, and nothing arrives anywhere. -/
theorem Term.IsFilter.eval_eq {t : Term} (h : t.IsFilter) (pkt : Packet) :
    t.eval pkt = .none ∨ t.eval pkt = .pass pkt := by
  have harrivals : (t.eval pkt).arrivals = .empty := by
    apply SortedSet.ext_mem
    intro a
    refine iff_of_false (fun ha => ?_) (SortedSet.not_mem_empty a)
    exact h.not_arrives (x := .query a.sink) rfl ((Term.mem_arrivals_iff t pkt).1 ha)
  have houtputs : ∀ q ∈ (t.eval pkt).outputs, q = pkt := fun q => h.eq_of_mem_outputs
  rcases SortedSet.eq_empty_or_eq_singleton houtputs with hempty | hone
  · exact .inl (Outcome.ext hempty harrivals)
  · exact .inr (Outcome.ext hone harrivals)

namespace Controller

variable {c : Controller}

/-- The term of a filter whose handles are known is a filter. -/
theorem Sound.isFilter_term (hc : c.Sound) (f : Filter) (hf : c.store.Covers f.policy) :
    (c.store.term f.policy).IsFilter := by
  have howns : c.store.OwnsAll f.policy :=
    fun h hh => hc.closed.owns_of_mem_handles hf (Store.mem_handles.2 hh)
  exact c.store.carried_filter.term (hc.kinds.holdsFilters howns) f.isFilter

/-- Whatever is done to the handles, filters made of them stay filters and have negations that
compile. A definition is refused only if it would make something else of a handle for filters, and
then nothing changes. -/
theorem filters_stay_filters {start c d : Controller} {before after : List Command}
    (hstore : start.store.definitions = []) (hreactive : start.reactive = [])
    (hbefore : Run (fun _ => True) start before c) (hafter : Run (fun _ => True) c after d) :
    (∀ h, d.store.owns h = true → h.isFilter = true → (d.store.definition h).isFilter = true) ∧
    (∀ f : Filter, c.store.Covers f.policy →
      (∀ pkt, (d.store.eval f.policy pkt).arrivals = .empty ∧
        (d.eval f.policy pkt = (.empty, d) ∨ d.eval f.policy pkt = (.singleton pkt, d))) ∧
      ∀ settings, ∃ t, d.store.compile settings f.not.policy = .ok t) ∧
    (∀ r ∈ c.reactive, ∀ side last, r.source = .edge side last →
      ∃ f : Filter, f.policy = .dynamic r.handle ∧ c.store.Covers f.policy) ∧
    ∀ h p,
      (∀ e, (d.redefine h p).1 = .error e ↔
        e = .notAFilter p ∧ h.isFilter = true ∧ p.isFilter = false) ∧
      (h.isFilter = true → p.isFilter = false →
        d.redefine h p = (.error (.notAFilter p), d, [])) := by
  have hc : c.Sound := hbefore.sound (sound_of_empty hstore hreactive)
  have hd : d.Sound := hafter.sound hc
  refine ⟨fun h => hd.kinds.isFilter_definition, ?_, ?_, ?_⟩
  · intro f hf
    have hterm := hd.isFilter_term f (hafter.covers hc hf)
    constructor
    · intro pkt
      have heval : d.store.eval f.policy pkt = .none ∨ d.store.eval f.policy pkt = .pass pkt :=
        hterm.eval_eq pkt
      rw [eval]
      rcases heval with hnone | hpass
      · rw [hnone]
        exact ⟨rfl, .inl rfl⟩
      · rw [hpass]
        exact ⟨rfl, .inr rfl⟩
    · intro settings
      obtain ⟨t, ht, -⟩ := hterm.negate.compiles settings
      exact ⟨t, ht.compile_eq⟩
  · intro r hr side last hsource
    obtain ⟨howns, hkind⟩ := hc.reactive r hr
    rw [hsource] at hkind
    refine ⟨.dynamic r.handle hkind, rfl, fun k hk => ?_⟩
    rwa [Policy.mentions_dynamic.1 hk]
  · intro h p
    exact ⟨fun e => redefine_eq_error_iff, redefine_of_refused⟩

/-- A filter is made, then the network becomes known, and the filter's definition comes to negate
the filter at the edge. -/
theorem filters_stay_filters_renewed :
    ∃ c d : Controller,
      c = ((({} : Controller).perform (.createEdge .ingress)).1.perform
        (.createFilter (.test (.int "inport" 1)))).1 ∧
      d = ((c.perform (.setNetwork 0 { egress := .singleton ⟨1, 2⟩ })).1.perform
        (.redefine ⟨1, true⟩ (.negate (.dynamic ⟨0, true⟩)))).1 ∧
      d.store.definition ⟨1, true⟩ = .negate (.dynamic ⟨0, true⟩) ∧
      (d.store.definition ⟨0, true⟩).isFilter = true ∧
      (∀ pkt, d.eval (.dynamic ⟨1, true⟩) pkt = (.empty, d) ∨
        d.eval (.dynamic ⟨1, true⟩) pkt = (.singleton pkt, d)) ∧
      (∃ t, d.store.compile {} (.negate (.dynamic ⟨1, true⟩)) = .ok t) ∧
      d.redefine ⟨1, true⟩ .controller = (.error (.notAFilter .controller), d, []) := by
  let c : Controller := ((({} : Controller).perform (.createEdge .ingress)).1.perform
    (.createFilter (.test (.int "inport" 1)))).1
  let shown : Controller := (c.perform (.setNetwork 0 { egress := .singleton ⟨1, 2⟩ })).1
  let d : Controller := (shown.perform (.redefine ⟨1, true⟩ (.negate (.dynamic ⟨0, true⟩)))).1
  have hdynamic : c.store.Covers (.dynamic ⟨1, true⟩) := by
    intro k hk
    rw [Policy.mentions_dynamic.1 hk]
    decide +kernel
  have hnegate : shown.store.Covers (.negate (.dynamic ⟨0, true⟩)) := by
    intro k hk
    obtain rfl : k = ⟨0, true⟩ := by
      simpa [Policy.Mentions, Policy.ownParts, Policy.parts] using hk
    decide +kernel
  have hbefore : Run (fun _ => True) {} _ c :=
    .snoc (.snoc .nil trivial trivial) ((Policy.Settled.test _).covers _) trivial
  have hafter : Run (fun _ => True) c _ d :=
    .snoc (.snoc .nil Nat.zero_lt_one trivial) ⟨by decide +kernel, hnegate⟩ trivial
  obtain ⟨hkinds, hfilters, -, hrefused⟩ := filters_stay_filters rfl rfl hbefore hafter
  have hfilter := hfilters (.dynamic ⟨1, true⟩ rfl) hdynamic
  exact ⟨c, d, rfl, rfl, by decide +kernel, hkinds _ (by decide +kernel) rfl,
    fun pkt => (hfilter.1 pkt).2, hfilter.2 {}, (hrefused _ _).2 rfl rfl⟩

end Controller

end PacketPolicy
