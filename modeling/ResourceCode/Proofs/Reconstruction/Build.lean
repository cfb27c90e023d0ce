import ResourceCode.Proofs.Reconstruction.Store

/-!
Statements that build a tree. Running them may set locals inside the base name and fill fresh objects, and
afterwards the expression evaluates to the tree, even when other code runs in between, as long as that code
leaves these locals and objects alone. From such statements for the members of an object, or for the items of
a list, one gets statements that build the whole.
-/

namespace ResourceCode

open Options (Inside)
open Store (Datum)

/-- Evaluating the expression in a later store gives the tree. The objects behind it are fresh: they are
those from `low` to `high`, or are allocated by the evaluation itself. -/
def Ready (s : Store) (e : Expr) (base : String) (t : Tree) (low high : Nat) : Prop :=
  ∀ s₁, s.Keeps (Inside base) high s₁ →
    ∃ d s₂ as, s₁.eval e = some (d, s₂) ∧ s₁.Keeps (fun _ => True) s₁.next s₂ ∧
      Holds s₂.objects d t as ∧ as.Nodup ∧
      ∀ a ∈ as, (low ≤ a ∧ a < high) ∨ (s₁.next ≤ a ∧ a < s₂.next)

def Builds (statements : List Statement) (e : Expr) (base : String) (t : Tree) : Prop :=
  ∀ s : Store, ∃ s', s.run statements = some s' ∧
    s.Keeps (fun x => ¬ Inside base x) s.next s' ∧ Ready s' e base t s.next s'.next

/-- A datum that is ready stays so while later code keeps to other names and to newer objects. -/
theorem Ready.later {s s' : Store} {e : Expr} {base : String} {t : Tree} {low high : Nat}
    (h : Ready s e base t low high) (hs : s.Keeps (Inside base) high s') :
    Ready s' e base t low high :=
  fun s₁ hs₁ => h s₁ (hs.trans hs₁)

theorem builds_literal (l : Literal) (base : String) :
    Builds [] (.literal l) base (.literal l) := by
  intro s
  refine ⟨s, rfl, .refl _ _ s, fun s₁ _ => ?_⟩
  exact ⟨.literal l, s₁, [], rfl, .refl _ _ s₁, .literal l, List.nodup_nil, by simp⟩

theorem builds_constant (type : TypeRef) (name base : String) :
    Builds [] (.field (.type type) name) base (.constant type name) := by
  intro s
  refine ⟨s, rfl, .refl _ _ s, fun s₁ _ => ?_⟩
  exact ⟨.constant type name, s₁, [], rfl, .refl _ _ s₁, .constant type name, List.nodup_nil,
    by simp⟩

/-- A bare construction, which is evaluated where it stands. -/
theorem builds_new (tag : TypeRef) (base : String) :
    Builds [] (.new tag []) base (.object tag []) := by
  intro s
  refine ⟨s, rfl, .refl _ _ s, fun s₁ _ => ?_⟩
  have hobject : (s₁.allocate tag).objects s₁.next = { tag, members := Held.members [] } :=
    s₁.objects_allocate_same tag
  have hnext : (s₁.allocate tag).next = s₁.next + 1 := rfl
  refine ⟨.ref s₁.next, s₁.allocate tag, [s₁.next], rfl, s₁.keeps_allocate _ tag,
    .object [] hobject (by simp), by simp, fun a ha => .inr ?_⟩
  have ha' := List.mem_singleton.mp ha
  omega

/-- The code for a member of an object, or for an item of a list. -/
structure Child where
  member : String
  statements : List Statement
  expr : Expr
  tree : Tree

/-- A child whose statements have been run, with the addresses between which its objects are. -/
structure Span where
  child : Child
  low : Nat
  high : Nat

variable {o : Options} {base : String}

def Child.Sound (o : Options) (base : String) (c : Child) : Prop :=
  Builds c.statements c.expr (o.nestedName base c.member) c.tree

def Span.Ready (s : Store) (o : Options) (base : String) (p : Span) : Prop :=
  ResourceCode.Ready s p.child.expr (o.nestedName base p.child.member) p.child.tree p.low p.high

/-- Running the statements of all children makes each of them ready. -/
theorem run_children (ho : o.separator = "_") {children : List Child}
    (hplain : ∀ c ∈ children, Text.IsPlain c.member) (hn : (children.map Child.member).Nodup)
    (hsound : ∀ c ∈ children, c.Sound o base) (s : Store) :
    ∃ (s' : Store) (spans : List Span), s.run (children.flatMap Child.statements) = some s' ∧
      spans.map Span.child = children ∧
      s.Keeps (fun x => ∀ c ∈ children, ¬ Inside (o.nestedName base c.member) x) s.next s' ∧
      (∀ p ∈ spans, p.Ready s' o base ∧ s.next ≤ p.low ∧ p.high ≤ s'.next) ∧
      spans.Pairwise fun p q => p.high ≤ q.low := by
  induction children generalizing s with
  | nil => exact ⟨s, [], rfl, rfl, .refl _ _ s, by simp, .nil⟩
  | cons c rest ih =>
    obtain ⟨hc, hrest⟩ := List.nodup_cons.mp hn
    have hplain' := fun d hd => hplain d (List.mem_cons_of_mem c hd)
    obtain ⟨s₁, hrun, hkeeps, hready⟩ := hsound c List.mem_cons_self s
    obtain ⟨s₂, spans, hrun₂, rfl, hkeeps₂, hspans, hpairs⟩ :=
      ih hplain' hrest (fun d hd => hsound d (List.mem_cons_of_mem c hd)) s₁
    have hapart (x : String) (hx : Inside (o.nestedName base c.member) x) :
        ∀ d ∈ spans.map Span.child, ¬ Inside (o.nestedName base d.member) x := by
      intro d hd hxd
      have heq := Options.eq_of_inside ho (hplain c List.mem_cons_self) (hplain' d hd) hx hxd
      exact hc (heq ▸ List.mem_map_of_mem hd)
    have hnext := hkeeps.next
    have hnext₂ := hkeeps₂.next
    refine ⟨s₂, ⟨c, s.next, s₁.next⟩ :: spans, ?_, rfl, ?_, ?_, ?_⟩
    · rw [List.flatMap_cons, Store.run_append_of hrun]
      exact hrun₂
    · refine Store.Keeps.trans (hkeeps.mono (fun x hx => hx c List.mem_cons_self) (Nat.le_refl _))
        (hkeeps₂.mono (fun x hx d hd => hx d (List.mem_cons_of_mem c hd)) hnext)
    · intro p hp
      rcases List.mem_cons.mp hp with rfl | hp
      · exact ⟨hready.later (hkeeps₂.mono hapart (Nat.le_refl _)), Nat.le_refl _, hnext₂⟩
      · obtain ⟨hp, hlow, hhigh⟩ := hspans p hp
        exact ⟨hp, Nat.le_trans hnext hlow, hhigh⟩
    · exact List.pairwise_cons.mpr ⟨fun p hp => (hspans p hp).2.1, hpairs⟩

/-- A statement about a local that evaluates an expression and then changes the object. -/
def Puts (x : String) (statement : Statement) (e : Expr) (f : Datum → Instance → Instance) :
    Prop :=
  ∀ ⦃s s' : Store⦄ ⦃a : Nat⦄ ⦃d : Datum⦄, s.object? x = some a → s.eval e = some (d, s') →
    s.exec statement = some (s'.change a (f d))

theorem puts_setMember (x member : String) (e : Expr) :
    Puts x (.setMember x member e) e fun d i => i.setMember member d := by
  intro s s' a d hx he
  simp [Statement.setMember, Store.exec, hx, he]

theorem puts_add (x : String) (e : Expr) : Puts x (.add (.var x) e) e fun d i => i.addItem d := by
  intro s s' a d hx he
  simp [Statement.add, Store.exec, hx, he]

/-- The object after it has been given what is held, one after another. -/
def Held.fill (f : String → Datum → Instance → Instance) (held : List Held) (i : Instance) :
    Instance :=
  held.foldl (fun i x => f x.member x.datum i) i

/-- From one store to another by putting children into object `a`: it now has what is held, which lies in the
spans of the children or has been allocated on the way. -/
structure Store.Filled (s s' : Store) (a : Nat) (f : String → Datum → Instance → Instance)
    (spans : List Span) (held : List Held) : Prop where
  next : s.next ≤ s'.next
  locals : s'.locals = s.locals
  others : ∀ b < s.next, b ≠ a → s'.objects b = s.objects b
  labels : held.map (fun y => (y.member, y.tree)) =
    spans.map fun p => (p.child.member, p.child.tree)
  object : s'.objects a = Held.fill f held (s.objects a)
  holds : ∀ y ∈ held, Holds s'.objects y.datum y.tree y.addresses
  distinct : (held.flatMap Held.addresses).Nodup
  range : ∀ b ∈ held.flatMap Held.addresses,
    (∃ p ∈ spans, p.low ≤ b ∧ b < p.high) ∨ (s.next ≤ b ∧ b < s'.next)

theorem Store.filled_nil (s : Store) (a : Nat) (f : String → Datum → Instance → Instance) :
    s.Filled s a f [] [] := by
  constructor <;> simp [Held.fill]

/-- One child more, whose expression has been evaluated first. -/
theorem Store.Filled.cons {s s₁ s' : Store} {a : Nat} {f : String → Datum → Instance → Instance}
    {p : Span} {rest : List Span} {d : Datum} {as : List Nat} {held : List Held} (ha : a < s.next)
    (hkeeps : s.Keeps (fun _ => True) s.next s₁) (hholds : Holds s₁.objects d p.child.tree as)
    (hnodup : as.Nodup)
    (hrange : ∀ b ∈ as, (p.low ≤ b ∧ b < p.high) ∨ (s.next ≤ b ∧ b < s₁.next))
    (hhigh : ∀ q ∈ p :: rest, q.high ≤ a) (hlater : ∀ q ∈ rest, p.high ≤ q.low)
    (h : (s₁.change a (f p.child.member d)).Filled s' a f rest held) :
    s.Filled s' a f (p :: rest) (⟨p.child.member, d, p.child.tree, as⟩ :: held) := by
  have hnext := hkeeps.next
  have hnext' : s₁.next ≤ s'.next := h.next
  have hpa := hhigh p List.mem_cons_self
  have hothers : ∀ b < s₁.next, b ≠ a → s'.objects b = s₁.objects b := by
    intro b hb hne
    rw [h.others b hb hne, Store.objects_change_of_ne _ hne]
  have hranges : ∀ b ∈ held.flatMap Held.addresses,
      (∃ q ∈ rest, q.low ≤ b ∧ b < q.high) ∨ (s₁.next ≤ b ∧ b < s'.next) := h.range
  constructor
  · omega
  · rw [h.locals, Store.locals_change]
    exact funext fun y => hkeeps.locals y trivial
  · intro b hb hne
    rw [hothers b (by omega) hne, hkeeps.objects b hb]
  · rw [List.map_cons, List.map_cons, h.labels]
  · rw [h.object, Store.objects_change_same, hkeeps.objects a ha]
    rfl
  · intro y hy
    rcases List.mem_cons.mp hy with rfl | hy
    · -- the objects of the first child are below everything that the rest allocates
      refine hholds.congr fun b hb => ?_
      have hb' := hrange b hb
      exact hothers b (by omega) (by omega)
    · exact h.holds y hy
  · rw [List.flatMap_cons, List.nodup_append]
    -- the objects of the rest are in later spans, or newer than all that the first child has
    refine ⟨hnodup, h.distinct, fun b hb c hc => ?_⟩
    rintro rfl
    have hb' := hrange b hb
    rcases hranges b hc with ⟨q, hq, hql, hqh⟩ | hc'
    · have hpq := hlater q hq
      have hqa := hhigh q (List.mem_cons_of_mem p hq)
      omega
    · omega
  · intro b hb
    rw [List.flatMap_cons] at hb
    rcases List.mem_append.mp hb with hb | hb
    · rcases hrange b hb with h' | h'
      · exact .inl ⟨p, List.mem_cons_self, h'⟩
      · exact .inr (by omega)
    · rcases hranges b hb with ⟨q, hq, h'⟩ | h'
      · exact .inl ⟨q, List.mem_cons_of_mem p hq, h'⟩
      · exact .inr (by omega)

/-- Putting ready children into an object, one after another, makes it hold their trees. -/
theorem run_puts {x : String} {put : Child → Statement}
    {f : String → Datum → Instance → Instance}
    (hput : ∀ c, Puts x (put c) c.expr (f c.member)) {spans : List Span} {s : Store} {a : Nat}
    (hx : s.locals x = some (.ref a)) (ha : a < s.next)
    (hready : ∀ p ∈ spans, p.Ready s o base) (hhigh : ∀ p ∈ spans, p.high ≤ a)
    (hpairs : spans.Pairwise fun p q => p.high ≤ q.low) :
    ∃ (s' : Store) (held : List Held), s.run (spans.map fun p => put p.child) = some s' ∧
      s.Filled s' a f spans held := by
  induction spans generalizing s with
  | nil => exact ⟨s, [], rfl, s.filled_nil a f⟩
  | cons p rest ih =>
    obtain ⟨hlater, hpairs'⟩ := List.pairwise_cons.mp hpairs
    obtain ⟨d, s₁, as, heval, hkeeps, hholds, hnodup, hrange⟩ :=
      hready p List.mem_cons_self s (.refl _ _ s)
    have hnext := hkeeps.next
    have hobject : s.object? x = some a := by simp [Store.object?, hx]
    have hexec := hput p.child hobject heval
    have hx₂ : (s₁.change a (f p.child.member d)).locals x = some (.ref a) := by
      rw [Store.locals_change, hkeeps.locals x trivial, hx]
    have hhigh' : ∀ q ∈ rest, q.high ≤ a := fun q hq => hhigh q (List.mem_cons_of_mem p hq)
    have hready₂ : ∀ q ∈ rest, q.Ready (s₁.change a (f p.child.member d)) o base := by
      intro q hq
      have hqa := hhigh' q hq
      have hs₁ : s.Keeps (Inside (o.nestedName base q.child.member)) q.high s₁ :=
        hkeeps.mono (fun _ _ => trivial) (by omega)
      have hqr := hready q (List.mem_cons_of_mem p hq)
      exact hqr.later (hs₁.trans (Store.keeps_change _ hqa s₁ _))
    obtain ⟨s', held, hrun, hfilled⟩ :=
      ih hx₂ (by rw [Store.next_change]; omega) hready₂ hhigh' hpairs'
    refine ⟨s', _, ?_, .cons ha hkeeps hholds hnodup hrange hhigh hlater hfilled⟩
    rw [List.map_cons, Store.run, hexec, Option.bind_some]
    exact hrun

/-- The statements of all children, a construction, and a statement that puts each child into it. -/
def wholeStatements (base : String) (tag : TypeRef) (children : List Child)
    (put : Child → Statement) : List Statement :=
  children.flatMap Child.statements ++ .declare base tag (some (.new tag [])) :: children.map put

/-- After the statements of a whole its local refers to a fresh object, which has been filled with data that
hold the trees of the children. -/
theorem run_whole (ho : o.separator = "_") {children : List Child} (tag : TypeRef)
    {put : Child → Statement} {f : String → Datum → Instance → Instance}
    (hput : ∀ c, Puts base (put c) c.expr (f c.member))
    (hplain : ∀ c ∈ children, Text.IsPlain c.member) (hn : (children.map Child.member).Nodup)
    (hsound : ∀ c ∈ children, c.Sound o base) (s : Store) :
    ∃ (s' : Store) (a : Nat) (held : List Held),
      s.run (wholeStatements base tag children put) = some s' ∧
      s.Keeps (fun x => ¬ Inside base x) s.next s' ∧ s'.locals base = some (.ref a) ∧
      held.map (fun y => (y.member, y.tree)) = children.map (fun c => (c.member, c.tree)) ∧
      s'.objects a = Held.fill f held { tag } ∧
      (∀ y ∈ held, Holds s'.objects y.datum y.tree y.addresses) ∧
      (a :: held.flatMap Held.addresses).Nodup ∧
      ∀ b ∈ a :: held.flatMap Held.addresses, s.next ≤ b ∧ b < s'.next := by
  obtain ⟨s₁, spans, hrun₁, hspans, hkeeps₁, hready₁, hpairs⟩ := run_children ho hplain hn hsound s
  have hmember : ∀ p ∈ spans, p.child ∈ children := fun p hp => hspans ▸ List.mem_map_of_mem hp
  have hnext₁ := hkeeps₁.next
  -- the object is built when its children stand: it is newer than they are, and its local is inside none of them
  have hready₂ : ∀ p ∈ spans, p.Ready (s₁.construct base tag) o base := by
    intro p hp
    obtain ⟨hpr, -, hhigh⟩ := hready₁ p hp
    have hbase : ¬ Inside (o.nestedName base p.child.member) base :=
      Options.not_inside_nestedName ho (hplain _ (hmember p hp))
    exact hpr.later ((Store.keeps_construct hbase s₁ tag).mono (fun _ hx => hx) hhigh)
  obtain ⟨s', held, hrun', hfilled⟩ :=
    run_puts hput (s₁.locals_construct_same base tag) (Nat.lt_succ_self s₁.next) hready₂
      (fun p hp => (hready₁ p hp).2.2) hpairs
  have hnext' : s₁.next + 1 ≤ s'.next := hfilled.next
  have hrange : ∀ b ∈ held.flatMap Held.addresses, s.next ≤ b ∧ b < s'.next ∧ b ≠ s₁.next := by
    intro b hb
    have hranges := hfilled.range b hb
    rw [Store.next_construct] at hranges
    rcases hranges with ⟨p, hp, h⟩ | h
    · have := (hready₁ p hp).2
      omega
    · omega
  refine ⟨s', s₁.next, held, ?_, ⟨by omega, ?_, ?_⟩, ?_, ?_, ?_, hfilled.holds, ?_, ?_⟩
  · rw [wholeStatements, Store.run_append_of hrun₁, Store.run, Store.exec_construct,
      Option.bind_some, ← hspans, List.map_map]
    exact hrun'
  · intro x hx
    have hne : x ≠ base := fun h => hx (h ▸ Options.inside_base base)
    rw [hfilled.locals, s₁.locals_construct_of_ne hne]
    refine hkeeps₁.locals x fun c hc h => hx ?_
    exact h.of_nestedName ho (hplain c hc)
  · intro b hb
    have hlt : b < s₁.next := by omega
    rw [hfilled.others b (Nat.lt_succ_of_lt hlt) (Nat.ne_of_lt hlt),
      s₁.objects_construct_of_ne (Nat.ne_of_lt hlt), hkeeps₁.objects b hb]
  · rw [hfilled.locals, Store.locals_construct_same]
  · rw [hfilled.labels, ← hspans, List.map_map]
    rfl
  · rw [hfilled.object, Store.objects_construct_same]
  · refine List.nodup_cons.mpr ⟨fun h => ?_, hfilled.distinct⟩
    exact (hrange _ h).2.2 rfl
  · intro b hb
    rcases List.mem_cons.mp hb with rfl | hb
    · omega
    · have := hrange b hb
      omega

/-- A local that refers to a held tree is ready. -/
theorem ready_var {s : Store} {d : Datum} {t : Tree} {as : List Nat} {low : Nat}
    (hlocal : s.locals base = some d) (hholds : Holds s.objects d t as) (hnodup : as.Nodup)
    (hrange : ∀ a ∈ as, low ≤ a ∧ a < s.next) : Ready s (.var base) base t low s.next := by
  intro s₁ hs₁
  have heval : s₁.eval (.var base) = some (d, s₁) := by
    rw [Store.eval, hs₁.locals base (Options.inside_base base), hlocal]
    rfl
  refine ⟨d, s₁, as, heval, .refl _ _ s₁, ?_, hnodup, fun a ha => .inl (hrange a ha)⟩
  exact hholds.congr fun a ha => hs₁.objects a (hrange a ha).2

/-- Stored members stand behind those that were stored before. -/
theorem fill_setMember (before : List Held) {held : List Held} {i : Instance}
    (hi : i.members = Held.members before) (hn : ((before ++ held).map Held.member).Nodup) :
    Held.fill (fun m d i => i.setMember m d) held i =
      { i with members := Held.members (before ++ held) } := by
  induction held generalizing before i with
  | nil =>
    rw [List.append_nil, ← hi]
    rfl
  | cons x rest ih =>
    have happend : before ++ x :: rest = (before ++ [x]) ++ rest := by simp
    rw [happend] at hn ⊢
    have hbefore : ((before ++ [x]).map Held.member).Nodup := by
      rw [List.map_append] at hn
      exact (List.nodup_append.mp hn).1
    have hone : (i.setMember x.member x.datum).members = Held.members (before ++ [x]) := by
      rw [Instance.setMember, hi, Held.update_members hbefore]
    exact ih (before ++ [x]) hone hn

/-- Added items stand behind those that were added before. -/
theorem fill_addItem (held : List Held) (i : Instance) :
    Held.fill (fun _ d i => i.addItem d) held i =
      { i with items := i.items ++ held.map Held.datum } := by
  induction held generalizing i with
  | nil => simp [Held.fill]
  | cons x rest ih =>
    have hrest := ih (i.addItem x.datum)
    simp only [Held.fill, List.foldl_cons] at hrest ⊢
    rw [hrest]
    simp [Instance.addItem]

/-- Statements that build the members of an object build the object, whatever their order. -/
theorem builds_object (ho : o.separator = "_") {children : List Child} (tag : TypeRef)
    {members : List (String × Tree)} (hplain : ∀ c ∈ children, Text.IsPlain c.member)
    (hn : (children.map Child.member).Nodup) (hsound : ∀ c ∈ children, c.Sound o base)
    (hmembers : (children.map fun c => (c.member, c.tree)).Perm members) :
    Builds (wholeStatements base tag children fun c => .setMember base c.member c.expr)
      (.var base) base (.object tag members) := by
  intro s
  obtain ⟨s', a, held, hrun, hkeeps, hlocal, hmap, hfill, hheld, hdistinct, hrange⟩ :=
    run_whole (f := fun m d i => i.setMember m d) ho tag
      (fun c => puts_setMember base c.member c.expr) hplain hn hsound s
  have hnames : (held.map Held.member).Nodup := by
    have hfst := congrArg (List.map Prod.fst) hmap
    rw [List.map_map, List.map_map] at hfst
    exact hfst ▸ hn
  have hobject : s'.objects a = { tag, members := Held.members held } := by
    rw [hfill]
    exact fill_setMember [] rfl hnames
  obtain ⟨as, hperm, hholds⟩ := Holds.object_perm hobject hheld hnames (hmap ▸ hmembers)
  refine ⟨s', hrun, hkeeps, ready_var hlocal hholds (hperm.nodup_iff.mpr hdistinct) ?_⟩
  exact fun b hb => hrange b (hperm.mem_iff.mp hb)

/-- Statements that build the items of a list build the list. -/
theorem builds_list (ho : o.separator = "_") {children : List Child}
    (hplain : ∀ c ∈ children, Text.IsPlain c.member) (hn : (children.map Child.member).Nodup)
    (hsound : ∀ c ∈ children, c.Sound o base) :
    Builds (wholeStatements base .objectList children fun c => .add (.var base) c.expr)
      (.var base) base (.list (children.map Child.tree)) := by
  intro s
  obtain ⟨s', a, held, hrun, hkeeps, hlocal, hmap, hfill, hheld, hdistinct, hrange⟩ :=
    run_whole (f := fun _ d i => i.addItem d) ho .objectList (fun c => puts_add base c.expr)
      hplain hn hsound s
  have htrees : held.map Held.tree = children.map Child.tree := by
    have hsnd := congrArg (List.map Prod.snd) hmap
    rwa [List.map_map, List.map_map] at hsnd
  have hobject : s'.objects a = { tag := .objectList, items := held.map Held.datum } := by
    rw [hfill, fill_addItem]
    simp
  have hholds : Holds s'.objects (.ref a) (.list (held.map Held.tree))
      (a :: held.flatMap Held.addresses) := .list held hobject hheld
  rw [htrees] at hholds
  exact ⟨s', hrun, hkeeps, ready_var hlocal hholds hdistinct hrange⟩

end ResourceCode
