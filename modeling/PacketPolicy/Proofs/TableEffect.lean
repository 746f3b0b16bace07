import PacketPolicy.Proofs.Verdict

/-!
# The effect of a table

Two relations say all that matters about a verdict: which packets it passes on, and
which actions end a packet's way through the table. Merging tables acts on both as
union and as composition of relations.
-/

namespace PacketPolicy

namespace Action

@[simp] theorem output?_identity (pkt : Packet) : output? .identity pkt = some pkt := rfl

@[simp] theorem output?_modify (m : Modification) (pkt : Packet) :
    output? (.modify m) pkt = some (m.apply pkt) := rfl

@[simp] theorem output?_drop (pkt : Packet) : output? .drop pkt = none := rfl

@[simp] theorem output?_controller (pkt : Packet) : output? .controller pkt = none := rfl

@[simp] theorem output?_query (s : Sink) (pkt : Packet) : output? (.query s) pkt = none := rfl

theorem mem_union {x : Action} (hx : x ≠ .drop) {as bs : List Action} :
    x ∈ union as bs ↔ x ∈ as ∨ x ∈ bs := by
  have hmem : x ∈ ((as ++ bs).filter (· ≠ .drop)).eraseDups ↔ x ∈ as ∨ x ∈ bs := by
    simp [hx]
  rw [← hmem]
  unfold union
  split
  · next hnil => rw [hnil]; simp [hx]
  · rfl

theorem ne_drop_of_output? {a : Action} {pkt q : Packet} (h : a.output? pkt = some q) :
    a ≠ .drop := by
  rintro rfl
  cases h

theorem ne_drop_of_isTerminal {a : Action} (h : a.isTerminal = true) : a ≠ .drop := by
  rintro rfl
  cases h

/-- Some action makes the first packet into the second. -/
def Passes (actions : List Action) (pkt q : Packet) : Prop :=
  ∃ a ∈ actions, a.output? pkt = some q

theorem passes_union {as bs : List Action} {pkt q : Packet} :
    Passes (union as bs) pkt q ↔ Passes as pkt q ∨ Passes bs pkt q := by
  unfold Passes
  rw [← exists_or]
  refine exists_congr ?_
  intro a
  rw [← or_and_right]
  exact and_congr_left fun h => mem_union (ne_drop_of_output? h)

theorem output?_modify_andThen (m : Modification) (a : Action) (pkt : Packet) :
    (andThen (.modify m) a).output? pkt = a.output? (m.apply pkt) := by
  cases a with
  | modify n => exact congrArg some (m.apply_andThen n pkt)
  | identity => rfl
  | drop => rfl
  | controller => rfl
  | query s => rfl

theorem output?_eq_some_iff {a : Action} {pkt q : Packet} :
    a.output? pkt = some q ↔
      a = .identity ∧ q = pkt ∨ ∃ m, a = .modify m ∧ q = m.apply pkt := by
  cases a <;> simp [eq_comm]

theorem identity_andThen (b : Action) : andThen .identity b = b := by
  cases b <;> rfl

theorem output?_andThen {a : Action} {pkt q : Packet} (h : a.output? pkt = some q) (b : Action) :
    (a.andThen b).output? pkt = b.output? q := by
  obtain ⟨rfl, rfl⟩ | ⟨m, rfl, rfl⟩ := output?_eq_some_iff.1 h
  · rw [identity_andThen]
  · exact output?_modify_andThen m b pkt

theorem sink?_andThen {a : Action} {pkt q : Packet} (h : a.output? pkt = some q) (b : Action) :
    (a.andThen b).sink? = b.sink? := by
  obtain ⟨rfl, -⟩ | ⟨m, rfl, -⟩ := output?_eq_some_iff.1 h
  · rw [identity_andThen]
  · cases b <;> rfl

theorem followedBy_eq_map {a : Action} {pkt q : Packet} (h : a.output? pkt = some q)
    (actions : List Action) : a.followedBy actions = actions.map a.andThen := by
  obtain ⟨rfl, -⟩ | ⟨m, rfl, -⟩ := output?_eq_some_iff.1 h
  · rw [funext identity_andThen, List.map_id']
    rfl
  · rfl

/-- An action and then others: they see the packet that it passes on. -/
theorem passes_followedBy {a : Action} {actions : List Action} {pkt r : Packet} :
    Passes (a.followedBy actions) pkt r ↔
      ∃ q, a.output? pkt = some q ∧ Passes actions q r := by
  cases a with
  | identity => simp [followedBy]
  | modify m => simp [followedBy, Passes, output?_modify_andThen]
  | drop => simp [followedBy, Passes]
  | controller => simp [followedBy, Passes]
  | query s => simp [followedBy, Passes]

theorem modify_andThen_eq_iff {x : Action} (hx : x.isTerminal = true) {m : Modification}
    {a : Action} : andThen (.modify m) a = x ↔ a = x := by
  cases a <;> cases x <;> simp_all [andThen, isTerminal]

/-- The way of a packet ends in an action, or in one of those that follow. -/
theorem mem_followedBy {x : Action} (hx : x.isTerminal = true) {a : Action}
    {actions : List Action} (pkt : Packet) :
    x ∈ a.followedBy actions ↔ x = a ∨ (a.output? pkt).isSome = true ∧ x ∈ actions := by
  cases a with
  | identity =>
    have : x ≠ .identity := by rintro rfl; cases hx
    simp [followedBy, this]
  | modify m =>
    have : x ≠ .modify m := by rintro rfl; cases hx
    simp [followedBy, this, modify_andThen_eq_iff hx]
  | drop => simp [followedBy]
  | controller => simp [followedBy]
  | query s => simp [followedBy]

end Action

namespace Table

theorem mem_unionAll {x : Action} (hx : x ≠ .drop) {ls : List (List Action)} :
    x ∈ unionAll ls ↔ ∃ l ∈ ls, x ∈ l := by
  cases ls with
  | nil => simp [unionAll, hx]
  | cons l rest =>
    rw [unionAll]
    induction rest generalizing l with
    | nil => simp
    | cons k rest ih =>
      rw [List.foldl_cons, ih]
      simp [Action.mem_union hx, or_assoc]

/-- The table makes the first packet into the second. -/
def Passes (t : Table) (pkt q : Packet) : Prop :=
  ∃ actions, t.verdict pkt = some actions ∧ Action.Passes actions pkt q

/-- The way of the packet through the table ends in an action. -/
def EndsIn (t : Table) (pkt : Packet) (x : Action) : Prop :=
  ∃ actions, t.verdict pkt = some actions ∧ x ∈ actions

/-! ## Side by side -/

theorem passes_parallel (optimize : Bool) {a b : Table} {pkt q : Packet} :
    (parallel optimize a b).Passes pkt q ↔ a.Passes pkt q ∨ b.Passes pkt q := by
  unfold Passes
  rw [verdict_parallel]
  cases a.verdict pkt <;> cases b.verdict pkt <;> simp [Action.passes_union]

theorem endsIn_parallel (optimize : Bool) {a b : Table} {pkt : Packet} {x : Action}
    (hx : x ≠ .drop) :
    (parallel optimize a b).EndsIn pkt x ↔ a.EndsIn pkt x ∨ b.EndsIn pkt x := by
  unfold EndsIn
  rw [verdict_parallel]
  cases a.verdict pkt <;> cases b.verdict pkt <;> simp [Action.mem_union hx]

/-! ## One after the other -/

theorem verdictAfter_of_output {t : Table} {a : Action} {pkt q : Packet} {actions : List Action}
    (hq : a.output? pkt = some q) (h : t.verdict q = some actions) :
    t.verdictAfter a pkt = actions := by
  rw [verdictAfter, hq, Option.bind_some, h, Option.getD_some]

theorem passes_sequenced {actions : List Action} {t : Table} (ht : t.Total) {pkt r : Packet} :
    Action.Passes (sequenced actions t pkt) pkt r ↔
      ∃ q, Action.Passes actions pkt q ∧ t.Passes q r := by
  have hstep : ∀ a : Action, Action.Passes (a.followedBy (t.verdictAfter a pkt)) pkt r ↔
      ∃ q, a.output? pkt = some q ∧ t.Passes q r := by
    intro a
    rw [Action.passes_followedBy]
    refine exists_congr fun q => and_congr_right fun hq => ?_
    obtain ⟨bs, hbs⟩ := ht q
    simp [verdictAfter_of_output hq hbs, Passes, hbs]
  constructor
  · rintro ⟨x, hx, hxr⟩
    obtain ⟨l, hl, hxl⟩ := (mem_unionAll (Action.ne_drop_of_output? hxr)).1 hx
    obtain ⟨a, ha, rfl⟩ := List.mem_map.1 hl
    obtain ⟨q, hq, hqr⟩ := (hstep a).1 ⟨x, hxl, hxr⟩
    exact ⟨q, ⟨a, ha, hq⟩, hqr⟩
  · rintro ⟨q, ⟨a, ha, hq⟩, hqr⟩
    obtain ⟨x, hxl, hxr⟩ := (hstep a).2 ⟨q, hq, hqr⟩
    exact ⟨x, (mem_unionAll (Action.ne_drop_of_output? hxr)).2
      ⟨_, List.mem_map.2 ⟨a, ha, rfl⟩, hxl⟩, hxr⟩

theorem mem_sequenced {x : Action} (hx : x.isTerminal = true) {actions : List Action} {t : Table}
    (ht : t.Total) {pkt : Packet} :
    x ∈ sequenced actions t pkt ↔
      x ∈ actions ∨ ∃ q, Action.Passes actions pkt q ∧ t.EndsIn q x := by
  have hstep : ∀ a : Action, x ∈ a.followedBy (t.verdictAfter a pkt) ↔
      x = a ∨ ∃ q, a.output? pkt = some q ∧ t.EndsIn q x := by
    intro a
    rw [Action.mem_followedBy hx pkt]
    refine or_congr_right ?_
    cases hq : a.output? pkt with
    | none => simp
    | some q =>
      obtain ⟨bs, hbs⟩ := ht q
      simp [verdictAfter_of_output hq hbs, EndsIn, hbs]
  rw [sequenced, mem_unionAll (Action.ne_drop_of_isTerminal hx)]
  simp only [List.mem_map, exists_exists_and_eq_and, hstep, and_or_left, exists_or,
    exists_eq_right', Action.Passes]
  grind

theorem passes_sequential (optimize : Bool) {a b : Table} (hb : b.Total) {pkt r : Packet} :
    (sequential optimize a b).Passes pkt r ↔ ∃ q, a.Passes pkt q ∧ b.Passes q r := by
  rw [Passes, verdict_sequential optimize a hb]
  cases h : a.verdict pkt with
  | none => simp [Passes, h]
  | some as =>
    have hseq : Action.Passes (sequenced as b pkt) pkt r ↔ _ := passes_sequenced hb
    simpa [Passes, h] using hseq

theorem endsIn_sequential (optimize : Bool) {a b : Table} (hb : b.Total) {pkt : Packet}
    {x : Action} (hx : x.isTerminal = true) :
    (sequential optimize a b).EndsIn pkt x ↔
      a.EndsIn pkt x ∨ ∃ q, a.Passes pkt q ∧ b.EndsIn q x := by
  rw [EndsIn, verdict_sequential optimize a hb]
  cases h : a.verdict pkt with
  | none => simp [Passes, EndsIn, h]
  | some as =>
    have hseq : x ∈ sequenced as b pkt ↔ _ := mem_sequenced hx hb
    simpa [Passes, EndsIn, h] using hseq

end Table

end PacketPolicy
