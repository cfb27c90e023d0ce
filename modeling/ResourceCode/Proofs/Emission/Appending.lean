import ResourceCode.Proofs.Emission.Opening

/-!
What an emission writes does not depend on what the current method says already. Statements put in front of a
method stay in front of it through every emission, and change neither the result nor what is written behind
them. With what every emission keeps, this says all that an emission does to a session, whatever the emitters
are.
-/

namespace ResourceCode

/-- With statements in front of its own. -/
def Method.after (earlier : List Statement) (m : Method) : Method :=
  { m with body := earlier ++ m.body }

/-- With statements in front of the current method. -/
def Workshop.after (earlier : List Statement) (w : Workshop) : Workshop :=
  { w with current := w.current.after earlier }

def Outcome.after {α : Type} (earlier : List Statement) (x : Outcome α) : Outcome α :=
  (x.1, x.2.after earlier)

namespace Workshop

/-- Statements put in front of the body do not matter to one that is added behind it. -/
theorem after_push (earlier : List Statement) (w : Workshop) (s : Statement) :
    (w.after earlier).push s = (w.push s).after earlier := by
  simp [after, push, Method.after, Method.push]

theorem after_left (earlier : List Statement) (w : Workshop) (v : Value) :
    (w.after earlier).left v = (w.left v).after earlier := by
  cases v <;> rfl

end Workshop

/-- An emission to which the statements of the current method make no difference. -/
def Emission.Indifferent (emission : Emission) : Prop :=
  ∀ scope v base w earlier, emission scope v base (w.after earlier) =
    (emission scope v base w).map (Outcome.after earlier)

section

variable {emission : Emission} {run : Emitter → Emission} {scope : Scope}

/-- A factory is begun empty, and the current method comes back as it was. -/
theorem Emission.inMethod_after (m : Method) (v : Value) (base : String) (w : Workshop)
    (earlier : List Statement) :
    emission.inMethod m scope v base (w.after earlier) =
      (emission.inMethod m scope v base w).map (Outcome.after earlier) := by
  have hstart : { w.after earlier with current := m } = { w with current := m } := rfl
  simp only [Emission.inMethod, hstart, Option.map_map]
  apply congrArg (Option.map · _)
  funext x
  obtain ⟨r, u⟩ := x
  cases r <;> rfl

/-- Following a recipe behind earlier statements writes what it writes without them, when all that it calls
does so. -/
theorem Recipe.follow_after {α : Type} (hemission : emission.Indifferent)
    (hrun : ∀ e, (run e).Indifferent) (recipe : Recipe α) (w : Workshop)
    (earlier : List Statement) :
    recipe.follow emission run scope (w.after earlier) =
      (recipe.follow emission run scope w).map (Outcome.after earlier) := by
  induction recipe generalizing w with
  | done a => rfl
  | fail e => rfl
  | push s next ih =>
    simp only [follow, Workshop.after_push]
    exact ih (w.push s)
  | read o property next ih => exact ih _ w
  | emit v base next ih =>
    simp only [follow, hemission scope v base w earlier]
    cases emission scope v base w with
    | none => rfl
    | some x => exact ih x.1 x.2
  | delegate type v base next ih =>
    have hregistry : (w.after earlier).generator.registry = w.generator.registry := rfl
    simp only [follow, hregistry]
    cases w.generator.registry.find? type with
    | none => exact ih _ w
    | some e =>
      simp only [hrun e scope v base w earlier]
      cases run e scope v base w with
      | none => rfl
      | some x => exact ih x.1 x.2
  | recorded key next ih => exact ih _ w
  | factory stem content root next ih =>
    have hname : (w.after earlier).target.freeName (w.after earlier).current.name stem =
        w.target.freeName w.current.name stem := rfl
    simp only [follow, hname, Emission.inMethod_after]
    cases emission.inMethod _ scope content root w with
    | none => rfl
    | some x => exact ih _ x.2

end

namespace Generator

/-- Emitting a value does not look at the statements before it, when running its emitter does not. -/
theorem emitVia_indifferent {run : Emitter → Emission} (hrun : ∀ e, (run e).Indifferent) :
    (emitVia run).Indifferent := by
  intro scope v base w earlier
  rw [emitVia_eq, emitVia_eq]
  have hgenerator : (w.after earlier).generator = w.generator := rfl
  rw [hgenerator]
  cases w.generator.opening v with
  | settled r => rfl
  | runs e g =>
    have hstart : (w.after earlier).withGenerator g = (w.withGenerator g).after earlier := rfl
    simp only [Opening.follow, hstart, hrun e scope v base _ earlier, Option.map_map]
    apply congrArg (Option.map · _)
    funext x
    simp only [Function.comp_apply, Outcome.after, Workshop.after_left]

/-- No emitter looks at them, however deep the emitters inside it run. -/
theorem runWithin_indifferent (depth : Nat) (e : Emitter) : (runWithin depth e).Indifferent := by
  induction depth generalizing e with
  | zero => exact fun _ _ _ _ _ => rfl
  | succ depth ih =>
    intro scope v base w earlier
    exact Recipe.follow_after (emitVia_indifferent ih) ih _ w earlier

theorem emitWithin_indifferent (depth : Nat) : (emitWithin depth).Indifferent :=
  emitVia_indifferent (runWithin_indifferent depth)

end Generator

namespace Session

/-- With other statements in the current method. -/
def withBody (s : Session) (body : List Statement) : Session :=
  { s with workshop := { s.workshop with current := { s.workshop.current with body } } }

/-- What an emission adds to a session that has nothing in its current method, it adds behind any body. -/
theorem apply_withBody {emission : Emission} (hemission : emission.Indifferent) {s : Session}
    {scope : Scope} {v : Value} {base : String} {r : Except EmitError Expr} {u : Workshop}
    (h : emission scope v base (s.withBody []).workshop = some (r, u)) (body : List Statement) :
    (s.withBody body).apply emission scope v base =
      some (⟨r, u.current.body, u.target.methods.drop s.workshop.target.methods.length⟩,
        { s with workshop := u.after body }) := by
  have hworkshop : (s.withBody body).workshop = (s.withBody []).workshop.after body := by
    simp [withBody, Workshop.after, Method.after]
  have hdrop : (u.after body).current.body.drop body.length = u.current.body := by
    simp [Workshop.after, Method.after]
  unfold apply
  rw [hworkshop, hemission, h, Option.map_some, Option.map_some]
  have hbody : ((s.withBody []).workshop.after body).current.body.length = body.length := by
    simp [withBody, Workshop.after, Method.after]
  simp only [Outcome.after, hbody, hdrop]
  rfl

/-- Emitting changes a session by what is added, behind what was there, and by the generator, which keeps its
options and the emitter of every type that has one. The same is added whatever the current method says
already. The emitters may be any, and may run inside each other as deep as they like. -/
theorem emit_appends {s s' : Session} {heap : Heap} {withResources nested : Bool} {v : Value}
    {base : String} {depth : Nat} {emitted : Emitted}
    (h : s.apply (Generator.emitWithin depth) { s.scope heap withResources with nested } v base =
      some (emitted, s')) :
    s'.workshop.current = { s.workshop.current with
      body := s.workshop.current.body ++ emitted.statements } ∧
    s'.workshop.target = { s.workshop.target with
      methods := s.workshop.target.methods ++ emitted.methods } ∧
    s'.resources = s.resources ∧
    s'.workshop.generator.options = s.workshop.generator.options ∧
    (∀ type e, s.workshop.generator.registry.find? type = some e →
      s'.workshop.generator.registry.find? type = some e) ∧
    ∀ body, (s.withBody body).apply (Generator.emitWithin depth)
        { s.scope heap withResources with nested } v base =
      some (emitted, s'.withBody (body ++ emitted.statements)) := by
  obtain ⟨⟨r, w⟩, hw, heq⟩ := Option.map_eq_some_iff.mp h
  cases heq
  obtain ⟨⟨statements, hcurrent⟩, ⟨methods, htarget⟩, ⟨entries, hregistry⟩, hoptions, -⟩ :=
    Generator.emitWithin_steady depth hw
  have hstatements : w.current.body.drop s.workshop.current.body.length = statements := by
    simp [hcurrent]
  have hmethods : w.target.methods.drop s.workshop.target.methods.length = methods := by
    simp [htarget]
  refine ⟨?_, ?_, rfl, hoptions, fun type e he => ?_, fun body => ?_⟩
  · rw [hstatements]
    exact hcurrent
  · rw [hmethods]
    exact htarget
  · exact Registry.find?_isSome_of_append hregistry he
  · have hself : s.workshop = (s.withBody []).workshop.after s.workshop.current.body := by
      simp [withBody, Workshop.after, Method.after]
    rw [hself, Generator.emitWithin_indifferent] at hw
    obtain ⟨⟨r', u⟩, hu, heq⟩ := Option.map_eq_some_iff.mp hw
    cases heq
    rw [apply_withBody (Generator.emitWithin_indifferent depth) hu body]
    simp [Workshop.after, Method.after, withBody]

/-- A gadget, whose face is a template, handled by a custom emitter. -/
def gadgetHeap : Heap :=
  ⟨#[{ values := [("Face", .object { cell := 1, type := KnownType.dataTemplate.descriptor })] },
    { values := [("VisualTree", .list [.literal (.int32 1)])] }]⟩

def gadget : Object :=
  { cell := 0, type := { name := ⟨"Demo.Gadget"⟩, properties := [{ name := "Face" }] } }

/-- A session in which something has been written already. -/
def gadgetSession : Session where
  workshop :=
    { generator :=
        { registry := ⟨Registry.builtin.entries ++
            [(gadget.type.name, .touch gadget.type.name "Face")]⟩ }
      current := { name := "InitializeResources", body := [.declare "gadget" .object none] }
      target := { name := "Dictionary1" } }

theorem emit_appends_gadget :
    ∃ emitted s', gadgetSession.apply (Generator.emitWithin 4)
        { gadgetSession.scope gadgetHeap true with nested := false } (.object gadget) "gadget" =
        some (emitted, s') ∧
      emitted.result.isOk ∧ emitted.statements.length = 1 ∧ emitted.methods.length = 1 ∧
      s'.workshop.current = { gadgetSession.workshop.current with
        body := gadgetSession.workshop.current.body ++ emitted.statements } ∧
      s'.workshop.target = { gadgetSession.workshop.target with
        methods := gadgetSession.workshop.target.methods ++ emitted.methods } ∧
      s'.resources = gadgetSession.resources ∧
      s'.workshop.generator.options = gadgetSession.workshop.generator.options ∧
      (∀ type e, gadgetSession.workshop.generator.registry.find? type = some e →
        s'.workshop.generator.registry.find? type = some e) ∧
      ∀ body, (gadgetSession.withBody body).apply (Generator.emitWithin 4)
          { gadgetSession.scope gadgetHeap true with nested := false } (.object gadget) "gadget" =
        some (emitted, s'.withBody (body ++ emitted.statements)) := by
  have hsome : (gadgetSession.apply (Generator.emitWithin 4)
      { gadgetSession.scope gadgetHeap true with nested := false } (.object gadget) "gadget").any
        (fun x => x.1.result.isOk && x.1.statements.length == 1 && x.1.methods.length == 1) =
      true := by
    decide +kernel
  obtain ⟨⟨emitted, s'⟩, hs, hcounts⟩ := (Option.any_eq_true _ _).mp hsome
  simp only [Bool.and_eq_true, beq_iff_eq] at hcounts
  obtain ⟨⟨hok, hstatements⟩, hmethods⟩ := hcounts
  exact ⟨emitted, s', hs, hok, hstatements, hmethods, emit_appends hs⟩

end Session

end ResourceCode
