import ResourceCode.Proofs.Emission.Factories
import ResourceCode.Proofs.Emission.Joining

/-!
Templates and the methods they add to the class. Before its factory is built a template only reads, and what it gives
then mentions nothing but the factory. Everything that its content writes goes into the factory or into factories inside
it, and a factory that is not finished is dropped.

A free name is none of the class and not that of the current method, and while a factory is built the current method is
the factory: the method that the emission began with is in no class yet, and no longer looked at. A factory inside
another one can therefore take its name. No other can, and names that are too short for it are safe.
-/

namespace ResourceCode

namespace Template

variable {t : Template} {o : Object} {options : Options} {base : String} {emit : Emission}
  {run : Emitter → Emission} {scope : Scope} {w w' : Workshop} {r : Except EmitError Expr}

/-- What is constructed from a factory. -/
def expr (t : Template) (type : Option String) (name : String) : Expr :=
  .construct t.target
    ((type.map fun name => Expr.typeOf (.ofName ⟨name⟩)).toList ++ [.methodGroup name])

/-- A template is constructed from a factory by name, so the construction is not bound to any method. -/
theorem isMethodBound_expr (t : Template) (type : Option String) (name : String) :
    (t.expr type name).isMethodBound = false := by
  cases type <;> simp [expr, Expr.construct, Expr.isMethodBound, Expr.anyMethodBound]

/-- A template fails before it has written anything, or it builds its factory and refers to it. -/
theorem follow_recipe
    (h : (t.recipe options (.object o) base).follow emit run scope w = some (r, w')) :
    (∃ e, r = .error e ∧ w' = w) ∨
      ∃ content x type, scope.heap.get o "VisualTree" w.generator.inProgress.length = .ok content ∧
        emit.inMethod (.factory (w.target.freeName w.current.name (base ++ "_Factory"))) scope content
          (options.nestedName base "Root") w = some (x, w') ∧
        r = x.map fun _ => t.expr type (w.target.freeName w.current.name (base ++ "_Factory")) := by
  have hrecipe : t.recipe options (.object o) base =
      (t.appliesTo o).bind fun type => (Recipe.get o "VisualTree").bind fun content =>
        (Recipe.factory (base ++ "_Factory") content (options.nestedName base "Root")
          Recipe.ofExcept).bind fun name => .done (t.expr type name) := rfl
  obtain ⟨type, htype⟩ := (t.isReading_appliesTo o).follow_eq emit run scope w
  rw [hrecipe, Recipe.follow_bind, htype, Option.bind_some] at h
  cases type with
  | error e =>
    cases h
    exact .inl ⟨e, rfl, rfl⟩
  | ok type =>
    cases hread : scope.heap.get o "VisualTree" w.generator.inProgress.length with
    | error e =>
      simp only [Recipe.get, Recipe.bind, Recipe.follow, hread] at h
      cases h
      exact .inl ⟨_, rfl, rfl⟩
    | ok content =>
      simp only [Recipe.get, Recipe.bind, Recipe.follow, hread] at h
      obtain ⟨⟨x, w₁⟩, hx, hnext⟩ := Option.bind_eq_some_iff.mp h
      refine .inr ⟨content, x, type, rfl, ?_⟩
      cases x <;> cases hnext <;> exact ⟨hx, rfl⟩

end Template

/-- Where the content of a template is emitted: into an empty factory, with the template in progress. -/
def Workshop.inside (w : Workshop) (o : Object) (name : String) : Workshop :=
  { generator := w.generator.entered (.object o), current := .factory name, target := w.target }

namespace Generator

variable {depth : Nat} {scope : Scope} {o : Object} {base : String} {w w' : Workshop}
  {r : Except EmitError Expr}

/-- A template is refused because it is in progress, or its emitter is run. -/
theorem follow_of_template (hw : w.generator.IsOwn) {t : Template}
    (ho : o.type.name = t.type.typeName)
    (h : emitWithin depth scope (.object o) base w = some (r, w')) :
    (∃ e, r = .error e ∧ w' = w) ∨ ∃ d u, depth = d + 1 ∧ w' = u.left (.object o) ∧
      (t.recipe w.generator.options (.object o) base).follow (emitWithin d) (runWithin d) scope
        (w.withGenerator (w.generator.entered (.object o))) = some (r, u) := by
  obtain ⟨more, hmore, -⟩ := hw
  obtain ⟨e, hr, hsame⟩ | ⟨u, hleft, hu⟩ := emitVia_builtin (b := .template t) hmore ho h
  · exact .inl ⟨e, hr, hsame⟩
  · cases depth with
    | zero => cases hu
    | succ d =>
      refine .inr ⟨d, u, rfl, hleft, ?_⟩
      rw [← w.generator.entered_options (.object o)]
      exact hu

/-- The emission of a template leaves the current method as it is, and nothing but finished factories joins the class.
When it succeeds, the result mentions no local, and the last method to join is the factory: it has the statements that
its content has been emitted with, and returns the content. -/
theorem emitWithin_template (hw : w.generator.IsOwn) (t : Template)
    (ho : o.type.name = t.type.typeName)
    (h : emitWithin depth scope (.object o) base w = some (r, w')) :
    w'.current = w.current ∧
    (∃ new, w'.target.methods = w.target.methods ++ new ∧ ∀ m ∈ new, m.IsFactory) ∧
    ∀ e, r = .ok e → e.isMethodBound = false ∧
      ∃ d content root u, depth = d + 1 ∧
        scope.heap.get o "VisualTree" (w.generator.inProgress.length + 1) = .ok content ∧
        emitWithin d { scope with nested := true } content (w.generator.options.nestedName base "Root")
          (w.inside o (w.target.freeName w.current.name (base ++ "_Factory"))) = some (.ok root, u) ∧
        w'.target.methods = u.target.methods ++
          [{ Method.factory (w.target.freeName w.current.name (base ++ "_Factory")) with
            body := u.current.body ++ [.ret (some root)] }] := by
  obtain ⟨-, new, htarget, hnew⟩ := emitWithin_joins depth hw h
  have hfactories : ∃ new, w'.target.methods = w.target.methods ++ new ∧ ∀ m ∈ new, m.IsFactory :=
    ⟨new, htarget, fun m hm => (hnew m hm).isFactory⟩
  obtain ⟨e, rfl, rfl⟩ | ⟨d, u, rfl, rfl, hfollow⟩ := follow_of_template hw ho h
  · exact ⟨rfl, hfactories, nofun⟩
  obtain ⟨e, rfl, rfl⟩ | ⟨content, x, type, hread, hbuilt, rfl⟩ := Template.follow_recipe hfollow
  · exact ⟨rfl, hfactories, nofun⟩
  have hcurrent := ((emitWithin_steady d).inMethod _ hbuilt).2
  refine ⟨hcurrent, hfactories, fun e he => ?_⟩
  -- the template succeeds exactly when its content does
  cases x with
  | error e' => cases he
  | ok e' =>
    cases he
    refine ⟨t.isMethodBound_expr .., ?_⟩
    obtain ⟨⟨r₁, u₁⟩, hu₁, heq⟩ := Option.map_eq_some_iff.mp hbuilt
    cases r₁ with
    | error x => cases heq
    | ok root =>
      cases heq
      obtain ⟨statements, hstatements⟩ := (emitWithin_steady d hu₁).current
      refine ⟨d, content, e', u₁, rfl, hread, hu₁, ?_⟩
      change u₁.target.methods ++ [u₁.current.push (.ret (some e'))] = _
      rw [hstatements]
      rfl

/-- The outermost of three templates, whose first name for a factory is in use. -/
def outermost : Object := { cell := 0, type := KnownType.dataTemplate.descriptor }

theorem emitWithin_template_nesting :
    ∃ e w, emitWithin 4 nestingScope (.object outermost) "item" nestingWorkshop = some (.ok e, w) ∧
      w.target.methods.length = 4 ∧ w.current = nestingWorkshop.current ∧
      (∃ new, w.target.methods = [.factory "item_Factory"] ++ new ∧ ∀ m ∈ new, m.IsFactory) ∧
      e.isMethodBound = false ∧
      ∃ d content root u, 4 = d + 1 ∧
        nestingScope.heap.get outermost "VisualTree" 1 = .ok content ∧
        emitWithin d { nestingScope with nested := true } content "item_Root"
          (nestingWorkshop.inside outermost "item_Factory2") = some (.ok root, u) ∧
        w.target.methods = u.target.methods ++
          [{ Method.factory "item_Factory2" with body := u.current.body ++ [.ret (some root)] }] := by
  have hsome : (emitWithin 4 nestingScope (.object outermost) "item" nestingWorkshop).any
      (fun x => x.1.isOk && x.2.target.methods.length == 4) = true := by
    decide +kernel
  obtain ⟨⟨r, w⟩, hw, hcounts⟩ := (Option.any_eq_true _ _).mp hsome
  simp only [Bool.and_eq_true, beq_iff_eq] at hcounts
  obtain ⟨hok, hmethods⟩ := hcounts
  cases r with
  | error x => cases hok
  | ok e =>
    have hown : nestingWorkshop.generator.IsOwn := Registry.within_builtin _ _
    obtain ⟨hcurrent, hnew, hsuccess⟩ := emitWithin_template hown .data rfl hw
    have hname : nestingWorkshop.target.freeName nestingWorkshop.current.name ("item" ++ "_Factory") =
        "item_Factory2" := by decide +kernel
    have hroot : nestingWorkshop.generator.options.nestedName "item" "Root" = "item_Root" := by
      decide +kernel
    rw [hname, hroot] at hsuccess
    exact ⟨e, w, hw, hmethods, hcurrent, hnew, hsuccess e rfl⟩

end Generator

/-- A number at the end does not count for the stem. -/
theorem Text.IsNumbered.stemLength_eq {stem s : String} (h : IsNumbered stem s) :
    stemLength s = stemLength stem := by
  obtain rfl | ⟨n, rfl⟩ := h
  · rfl
  · exact stemLength_numbered stem n

namespace Options

variable {o : Options} {base inner name : String}

/-- Going to members only makes names longer. -/
theorem Below.length_le (h : o.Below base inner) : base.toList.length ≤ inner.toList.length := by
  induction h with
  | refl => exact Nat.le_refl _
  | member m _ ih => exact Nat.le_trans ih (o.length_le_nestedName _ m)

/-- Behind the base name there is room for the root of a factory and for the end of another one's name. -/
theorem NamesInner.length_le (h : o.NamesInner base name) :
    base.toList.length + 12 ≤ Text.stemLength name := by
  obtain ⟨outer, inner, houter, hinner, hname⟩ := h
  have hroot := o.length_nestedName outer "Root"
  have hfour : ("Root" : String).toList.length = 4 := rfl
  have hbase := houter.length_le
  have hrest := hinner.length_le
  rw [hname.stemLength_eq, Text.stemLength_factory]
  omega

end Options

namespace Generator

variable {depth : Nat} {scope : Scope} {v : Value} {base : String} {w w' : Workshop}
  {r : Except EmitError Expr}

theorem emitWithin_furnishes (depth : Nat) : (emitWithin depth).Furnishes :=
  emitVia_furnishes fun _ he => runWithin_furnishes depth he

/-- Unless its name is one that a factory inside another may get, the current method shares it with no method that
joins the class. If the class had distinct names, and not this one, it still has when the method is added. -/
theorem current_name_apart (hw : w.generator.IsOwn)
    (hinner : ¬ w.generator.options.NamesInner base w.current.name)
    (h : emitWithin depth scope v base w = some (r, w')) :
    (∃ new, w'.target.methods = w.target.methods ++ new ∧ ∀ m ∈ new, m.name ≠ w.current.name) ∧
      (w.target.names.Nodup → w.current.name ∉ w.target.names →
        (w'.target.add w'.current).names.Nodup) := by
  obtain ⟨⟨statements, hcurrent, -⟩, new, htarget, hnew⟩ := emitWithin_joins depth hw h
  have hother : ∀ m ∈ new, m.name ≠ w.current.name := by
    intro m hm hsame
    -- with the name of the method it would stand inside another factory
    rcases (hnew m hm).other with hne | hname
    · exact hne hsame
    · exact hinner (hsame ▸ hname)
  refine ⟨⟨new, htarget, hother⟩, fun hdistinct hfree => ?_⟩
  have hnames := (emitWithin_furnishes depth hdistinct hw h).1.distinct
  have hname : w'.current.name = w.current.name := by rw [hcurrent]
  rw [Class.names_add, hname]
  refine List.nodup_append.mpr ⟨hnames, List.nodup_singleton _, fun x hx y hy => ?_⟩
  rw [List.mem_singleton.mp hy]
  rintro rfl
  simp only [Class.names, htarget, List.map_append, List.mem_append] at hx
  rcases hx with hold | hmem
  · exact hfree hold
  · obtain ⟨m, hm, heq⟩ := List.mem_map.mp hmem
    exact hother m hm heq

/-- The method has the name that the outermost of three factories would get. -/
def namesakeWorkshop : Workshop where
  current := { name := "item_Factory" }
  target := { name := "Dictionary1" }

theorem current_name_apart_namesake :
    ∃ e w, emitWithin 4 nestingScope nestingTemplate "item" namesakeWorkshop = some (.ok e, w) ∧
      w.target.names = ["item_Root_Root_Factory", "item_Root_Factory", "item_Factory2"] ∧
      ¬ Options.NamesInner {} "item" "item_Factory" ∧
      (∃ new, w.target.methods = [] ++ new ∧ ∀ m ∈ new, m.name ≠ "item_Factory") ∧
      (w.target.add w.current).names.Nodup := by
  have hsome : (emitWithin 4 nestingScope nestingTemplate "item" namesakeWorkshop).any
      (fun x => x.1.isOk && x.2.target.names ==
        ["item_Root_Root_Factory", "item_Root_Factory", "item_Factory2"]) = true := by
    decide +kernel
  obtain ⟨⟨r, w⟩, hw, hresult⟩ := (Option.any_eq_true _ _).mp hsome
  simp only [Bool.and_eq_true, beq_iff_eq] at hresult
  obtain ⟨hok, hnames⟩ := hresult
  cases r with
  | error x => cases hok
  | ok e =>
    have hown : namesakeWorkshop.generator.IsOwn := Registry.within_builtin _ _
    have hinner : ¬ Options.NamesInner {} "item" "item_Factory" := by
      intro h
      have hlong := h.length_le
      have hitem : ("item" : String).toList.length = 4 := rfl
      have hfactory : Text.stemLength "item_Factory" = 12 := by decide +kernel
      omega
    obtain ⟨hapart, hadded⟩ := current_name_apart hown hinner hw
    exact ⟨e, w, hw, hnames, hinner, hapart, hadded List.nodup_nil (List.not_mem_nil)⟩

/-- A template whose content is an empty template. -/
def embeddedHeap : Heap :=
  ⟨#[{ values := [("VisualTree", .object { cell := 1, type := KnownType.controlTemplate.descriptor })] },
    {}]⟩

def embeddingTemplate : Value := .object { cell := 0, type := KnownType.dataTemplate.descriptor }

/-- The factory inside the other one takes the name of the method. -/
theorem current_name_taken :
    ¬ ∀ (scope : Scope) (v : Value) (base : String) (method : Method) (target : Class)
      (r : Except EmitError Expr) (w : Workshop), method.name ∉ target.names →
      emit scope v base { current := method, target } = some (r, w) →
      method.name ∉ w.target.names := by
  intro hall
  have htaken : (emit { heap := embeddedHeap } embeddingTemplate "item"
      { current := { name := "item_Root_Factory" }, target := { name := "Dictionary1" } }).any
        (fun x => x.2.target.names.contains "item_Root_Factory") = true := by
    decide +kernel
  obtain ⟨⟨r, w⟩, hw, hmem⟩ := (Option.any_eq_true _ _).mp htaken
  exact hall _ _ _ _ _ r w List.not_mem_nil hw (List.contains_iff_mem.mp hmem)

end Generator

end ResourceCode
