import ResourceCode.Proofs.Code.FreeName
import ResourceCode.Proofs.Emission.Blame
import ResourceCode.Proofs.Emission.Scoping

/-!
What joins the class. Built-in and drafted emitters write no return themselves: a return ends a factory, and nothing
but finished factories joins the class. A factory is named after the base name of its template, and a template is
called by a name that has been made from the base name of the emission. The name is not that of the current
method; but inside a factory the current method is the factory.
-/

namespace ResourceCode

def Statement.isReturn : Statement → Bool
  | .ret _ => true
  | _ => false

/-- A finished factory: static, private, from one element to another, with a return at the end and no other. -/
structure Method.IsFactory (m : Method) : Prop where
  visibility : m.visibility = .private
  isStatic : m.isStatic = true
  parameters : m.parameters = [⟨"parent", .named "UIElement"⟩]
  returns : m.returns = .named "UIElement"
  body : ∃ statements e, m.body = statements ++ [.ret (some e)] ∧
    ∀ s ∈ statements, s.isReturn = false

/-- A text, with a number behind it at most. -/
def Text.IsNumbered (stem s : String) : Prop := s = stem ∨ ∃ n : Nat, s = stem ++ toString n

namespace Options

variable (o : Options)

/-- The names that are made from a base name by going on to members, one after another. -/
inductive Below (base : String) : String → Prop
  | refl : Below base base
  | member {inner} (member : String) : Below base inner → Below base (o.nestedName inner member)

/-- The names that factories may get inside other factories. -/
def NamesInner (base name : String) : Prop :=
  ∃ outer inner, o.Below base outer ∧ o.Below (o.nestedName outer "Root") inner ∧
    Text.IsNumbered (inner ++ "_Factory") name

variable {o} {base middle inner name : String}

theorem Below.trans (h : o.Below base middle) (h' : o.Below middle inner) : o.Below base inner := by
  induction h' with
  | refl => exact h
  | member m _ ih => exact ih.member m

theorem below_member (o : Options) (base member : String) :
    o.Below base (o.nestedName base member) :=
  .member member .refl

theorem NamesInner.of_below (hbase : o.Below base middle) (h : o.NamesInner middle name) :
    o.NamesInner base name := by
  obtain ⟨outer, inner, houter, hinner, hname⟩ := h
  exact ⟨outer, inner, hbase.trans houter, hinner, hname⟩

end Options

/-- What is known of a method that joins the class while something is emitted under a base name. Its name may be that
of the method written into only if it stands inside another factory. -/
structure Method.Joins (options : Options) (base current : String) (m : Method) : Prop where
  isFactory : m.IsFactory
  named : ∃ stem, options.Below base stem ∧ Text.IsNumbered (stem ++ "_Factory") m.name
  other : m.name ≠ current ∨ options.NamesInner base m.name

namespace Method

variable {options : Options} {base middle current other : String} {m : Method}

/-- What joins below a member also joins below the value. -/
theorem Joins.of_below (hbase : options.Below base middle) (h : m.Joins options middle current) :
    m.Joins options base current := by
  obtain ⟨hfactory, ⟨stem, hstem, hname⟩, hother⟩ := h
  exact ⟨hfactory, ⟨stem, hbase.trans hstem, hname⟩, hother.imp_right (.of_below hbase)⟩

/-- What joins from inside a factory has a name for it. -/
theorem Joins.of_root (h : m.Joins options (options.nestedName base "Root") other) :
    m.Joins options base current := by
  obtain ⟨hfactory, ⟨stem, hstem, hname⟩, -⟩ := h
  have hbelow := (options.below_member base "Root").trans hstem
  exact ⟨hfactory, ⟨stem, hbelow, hname⟩, .inr ⟨base, stem, .refl, hstem, hname⟩⟩

/-- A finished factory that has been given a free name. -/
theorem joins_freeName (c : Class) (current : String) {statements : List Statement} {e : Expr}
    (hs : ∀ s ∈ statements, s.isReturn = false)
    (hm : m = { factory (c.freeName current (base ++ "_Factory")) with
      body := statements ++ [.ret (some e)] }) : m.Joins options base current := by
  subst hm
  obtain ⟨⟨-, hne⟩, hname⟩ := c.freeName_spec current (base ++ "_Factory")
  exact ⟨⟨rfl, rfl, rfl, rfl, statements, e, rfl, hs⟩, ⟨base, .refl, hname⟩, .inl hne⟩

end Method

/-- From one workshop to a later one, when what is emitted is called by the base name: no return has been written, and
what has joined the class is known. -/
structure Workshop.Joined (options : Options) (base : String) (u w : Workshop) : Prop where
  current : ∃ statements, w.current = { u.current with body := u.current.body ++ statements } ∧
    ∀ s ∈ statements, s.isReturn = false
  target : ∃ factories, w.target.methods = u.target.methods ++ factories ∧
    ∀ m ∈ factories, m.Joins options base u.current.name

namespace Workshop

variable {options : Options} {base inner : String} {u v w : Workshop}

theorem Joined.refl (options : Options) (base : String) (w : Workshop) :
    w.Joined options base w :=
  ⟨⟨[], by simp⟩, ⟨[], by simp⟩⟩

/-- Going on with something that is called by a name below. -/
theorem Joined.trans (huv : u.Joined options base v) (hvw : v.Joined options inner w)
    (hbelow : options.Below base inner) : u.Joined options base w := by
  obtain ⟨⟨statements, hcurrent, hs⟩, ⟨factories, htarget, hf⟩⟩ := huv
  obtain ⟨⟨statements', hcurrent', hs'⟩, ⟨factories', htarget', hf'⟩⟩ := hvw
  have hname : v.current.name = u.current.name := by rw [hcurrent]
  refine ⟨⟨statements ++ statements', ?_, fun s hmem => ?_⟩,
    ⟨factories ++ factories', ?_, fun m hmem => ?_⟩⟩
  · rw [hcurrent', hcurrent, List.append_assoc]
  · exact (List.mem_append.mp hmem).elim (hs s) (hs' s)
  · rw [htarget', htarget, List.append_assoc]
  · rcases List.mem_append.mp hmem with hmem | hmem
    · exact hf m hmem
    · exact hname ▸ (hf' m hmem).of_below hbelow

theorem Joined.push (h : u.Joined options base w) {s : Statement} (hs : s.isReturn = false) :
    u.Joined options base (w.push s) := by
  obtain ⟨⟨statements, hcurrent, hall⟩, htarget⟩ := h
  refine ⟨⟨statements ++ [s], ?_, fun t hmem => ?_⟩, htarget⟩
  · simp [Workshop.push, Method.push, hcurrent]
  · rcases List.mem_append.mp hmem with hmem | hmem
    · exact hall t hmem
    · exact List.mem_singleton.mp hmem ▸ hs

end Workshop

/-- No emitter returns from the method: only the end of a factory does. -/
theorem Hand.Allows.not_return {h : Hand} {base : String} {s : Statement} (hs : h.Allows base s) :
    s.isReturn = false := by
  cases s with
  | ret value => exact hs.elim
  | _ => rfl

/-- An emission of which it is known what joins the class. -/
def Emission.Joins (emission : Emission) : Prop :=
  ∀ ⦃scope v base w r w'⦄, w.generator.IsOwn → emission scope v base w = some (r, w') →
    w.Joined w.generator.options base w'

section

variable {emission : Emission} {scope : Scope} {v : Value} {base : String} {w w' w₁ : Workshop}
  {r : Except EmitError Expr} {m : Method}

/-- While content is emitted into a factory, what joins has names for the inside of a factory. -/
theorem Emission.Joins.inside (h : emission.Joins) (hw : w.generator.IsOwn)
    (hr : emission { scope with nested := true } v (w.generator.options.nestedName base "Root")
      { w with current := m } = some (r, w₁)) :
    w.Joined w.generator.options base { w₁ with current := w.current } ∧
      ∃ statements, w₁.current = { m with body := m.body ++ statements } ∧
        ∀ s ∈ statements, s.isReturn = false := by
  obtain ⟨hcurrent, factories, htarget, hf⟩ := h (w := { w with current := m }) hw hr
  exact ⟨⟨⟨[], by simp⟩, factories, htarget, fun f hmem => (hf f hmem).of_root⟩, hcurrent⟩

/-- When content fails, its factory does not join, but factories inside it may have. -/
theorem Emission.Joins.inMethod_error (h : emission.Joins) (hw : w.generator.IsOwn) {e : EmitError}
    (hr : emission.inMethod m scope v (w.generator.options.nestedName base "Root") w =
      some (.error e, w')) : w.Joined w.generator.options base w' := by
  obtain ⟨⟨r₁, w₁⟩, hw₁, heq⟩ := Option.map_eq_some_iff.mp hr
  cases r₁ with
  | ok e' => cases heq
  | error e' =>
    cases heq
    exact (h.inside hw hw₁).1

/-- When content succeeds, its factory joins as a finished one. -/
theorem Emission.Joins.inMethod_ok (h : emission.Joins) (hw : w.generator.IsOwn) {e : Expr}
    (hr : emission.inMethod (.factory (w.target.freeName w.current.name (base ++ "_Factory"))) scope v
      (w.generator.options.nestedName base "Root") w = some (.ok e, w')) :
    w.Joined w.generator.options base w' := by
  obtain ⟨⟨r₁, w₁⟩, hw₁, heq⟩ := Option.map_eq_some_iff.mp hr
  cases r₁ with
  | error e' => cases heq
  | ok e' =>
    cases heq
    obtain ⟨⟨-, factories, htarget, hf⟩, statements, hcurrent, hs⟩ := h.inside hw hw₁
    refine ⟨⟨[], by simp⟩, factories ++ [w₁.current.push (.ret (some e))], ?_, fun f hmem => ?_⟩
    · exact (congrArg (· ++ [w₁.current.push (.ret (some e))]) htarget).trans (List.append_assoc ..)
    · rcases List.mem_append.mp hmem with hmem | hmem
      · exact hf f hmem
      · rw [List.mem_singleton.mp hmem, hcurrent]
        exact Method.joins_freeName w.target w.current.name hs rfl

end

/-- Halfway through a recipe that was begun in workshop `u`. -/
structure Workshop.Within (options : Options) (base : String) (reading : Nat) (u w : Workshop) :
    Prop where
  joined : u.Joined options base w
  isOwn : w.generator.IsOwn
  options : w.generator.options = options
  reading : w.generator.inProgress.length = reading

/-- Going on in a later workshop, below another name. -/
theorem Workshop.Within.grows {options : Options} {base inner : String} {reading : Nat}
    {u w w' : Workshop} (hw : u.Within options base reading w) (hgrows : w.Grows w')
    (hown : w'.generator.IsOwn) (hjoined : w.Joined options inner w')
    (hbelow : options.Below base inner) : u.Within options base reading w' where
  joined := hw.joined.trans hjoined hbelow
  isOwn := hown
  options := hgrows.options.trans hw.options
  reading := by rw [hgrows.inProgress, hw.reading]

/-- Every step of an orderly recipe keeps what is known halfway through. -/
theorem Scope.keeps_within {emission : Emission} (hjoins : emission.Joins) (hsteady : emission.Steady)
    (hmaintains : emission.Maintains Generator.IsOwn) (scope : Scope) (options : Options)
    (base : String) (reading : Nat) (u : Workshop) :
    (scope.job options base reading).Keeps emission scope
      (fun _ w => u.Within options base reading w) (u.Joined options base) where
  answer hw o property := by rw [hw.reading]; rfl
  push hw hs := ⟨hw.joined.push hs.not_return, hw.isOwn, hw.options, hw.reading⟩
  recorded hw _ := hw
  emitted hw _ _ hr :=
    hw.grows (hsteady hr) (hmaintains hw.isOwn hr) (hw.options ▸ hjoins hw.isOwn hr)
      (options.below_member base _)
  factory {h w name v e w'} hw _ _ hr hname := by
    obtain rfl := hw.options
    subst hname
    exact hw.grows (hsteady.inMethod _ hr).1 (hmaintains.inMethod _ hw.isOwn hr)
      (hjoins.inMethod_ok hw.isOwn hr) .refl
  emitFailed hw _ _ hr :=
    hw.joined.trans (hw.options ▸ hjoins hw.isOwn hr) (options.below_member base _)
  factoryFailed {h w name v e w'} hw _ _ hr := by
    obtain rfl := hw.options
    exact hw.joined.trans (hjoins.inMethod_error hw.isOwn hr) .refl
  blamed hw := hw.joined

namespace Generator

/-- Emitting a value keeps account of what joins when running the emitters of the generator does. -/
theorem emitVia_joins {run : Emitter → Emission} (hrun : ∀ e, e.IsOwn → (run e).Joins) :
    (emitVia run).Joins := by
  intro scope v base w r w' hw hr
  rw [emitVia_eq] at hr
  have hopens := w.generator.opens v
  cases hopening : w.generator.opening v with
  | settled r' =>
    rw [hopening] at hr
    cases hr
    exact .refl ..
  | runs e g =>
    rw [hopening] at hr hopens
    obtain ⟨⟨r₁, w₁⟩, hw₁, heq⟩ := Option.map_eq_some_iff.mp hr
    cases heq
    cases hopens with
    | runs _ hoptions _ hcharge =>
      have hg : g.IsOwn := lasting_isOwn.opening hw hopening
      obtain ⟨hcurrent, htarget⟩ := hrun e (hcharge.isOwn hw) (w := w.withGenerator g) hg hw₁
      rw [Workshop.generator_withGenerator, hoptions] at htarget
      cases v <;> exact ⟨hcurrent, htarget⟩

/-- Whatever is emitted by built-in and drafted emitters, it is known what joins the class. -/
theorem runWithin_joins (depth : Nat) {e : Emitter} (he : e.IsOwn) : (runWithin depth e).Joins := by
  induction depth generalizing e with
  | zero =>
    intro scope v base w r w' hw hr
    cases hr
  | succ depth ih =>
    intro scope v base w r w' hw hr
    have hkeeps := scope.keeps_within (emitVia_joins fun e he => ih he) (emitWithin_steady depth)
      (emitWithin_maintains lasting_isOwn depth) w.generator.options base
      w.generator.inProgress.length w
    have horderly := Emitter.orderly (j := scope.job w.generator.options base
      w.generator.inProgress.length) (v := v) he trivial
    have hwithin : w.Within w.generator.options base w.generator.inProgress.length w :=
      ⟨.refl .., hw, rfl, rfl⟩
    obtain ⟨_, _, -, -, hend⟩ | ⟨_, -, hend⟩ := horderly.follow hkeeps hwithin hr
    · exact hend.joined
    · exact hend

theorem emitWithin_joins (depth : Nat) : (emitWithin depth).Joins :=
  emitVia_joins fun _ he => runWithin_joins depth he

end Generator

end ResourceCode
