import ResourceCode.Generator
import ResourceCode.Proofs.Recipe.Orderly

/-!
What comes of following a recipe. One that only reads leaves the workshop as it is, and its result says what the heap
has answered. An orderly one keeps every invariant of the workshop, and of what the emitter has been given so far, that
each kind of step keeps. One that comes to an end may fail on the way, but then it is known how, and either way the
generator and the class are as they should be; there is one rule for each way to build a recipe, and the rules are put
together as the recipe is.
-/

namespace ResourceCode

section

open Number (Single Double)

/-- The items of a collection that has been read; null stands for an empty one. -/
inductive Value.HasItems : Value → List Value → Prop
  | null : HasItems .null []
  | list (items) : HasItems (.list items) items

/-- The four-byte number that a value is rounded to; null stands for none. -/
inductive Value.HasSingle : Value → Option Single → Prop
  | null : HasSingle .null none
  | number {v d} : v.asDouble? = some d → HasSingle v (some d.toSingle)

theorem Value.HasSingle.eq_some {v : Value} {d : Double} {x : Option Single} (h : v.HasSingle x)
    (hd : v.asDouble? = some d) : x = some d.toSingle := by
  cases h with
  | null => cases hd
  | number hd' => cases hd.symm.trans hd'; rfl

theorem Value.eq_null_of_isNull {v : Value} (h : v.isNull = true) : v = .null := by
  unfold isNull at h
  split at h
  · rfl
  · cases h

theorem Value.eq_string_of_string? {v : Value} {s : String} (h : v.string? = some s) :
    v = .string s := by
  obtain ⟨l, hl, hs⟩ := Option.bind_eq_some_iff.mp h
  cases v <;> cases hl
  cases l <;> cases hs
  rfl

theorem Value.eq_list_of_list? {v : Value} {items : List Value} (h : v.list? = some items) :
    v = .list items := by
  cases v <;> cases h
  rfl

namespace Recipe

variable {α β : Type}

/-- Reads properties and does nothing else. -/
def IsReading : Recipe α → Prop
  | .done _ => True
  | .fail _ => True
  | .read _ _ next => ∀ r, (next r).IsReading
  | _ => False

/-- Reading and then reading on is reading. -/
theorem IsReading.bind {r : Recipe α} {f : α → Recipe β} (hr : r.IsReading)
    (hf : ∀ a, (f a).IsReading) : (r.bind f).IsReading := by
  induction r with
  | done a => exact hf a
  | fail e => trivial
  | read o property next ih => exact fun x => ih x (hr x)
  | _ => exact hr.elim

/-- Following a recipe that only reads always comes to a result, and the workshop is as before. -/
theorem IsReading.follow_eq {r : Recipe α} (hr : r.IsReading) (emit : Emission)
    (run : Emitter → Emission) (scope : Scope) (w : Workshop) :
    ∃ x, r.follow emit run scope w = some (x, w) := by
  induction r with
  | done a => exact ⟨.ok a, rfl⟩
  | fail e => exact ⟨.error e, rfl⟩
  | read o property next ih => exact ih _ (hr _)
  | _ => exact hr.elim

theorem isReading_asObject (v : Value) : (asObject v).IsReading := by
  cases v <;> trivial

theorem isReading_get (o : Object) (property : String) : (get o property).IsReading := by
  intro r
  cases r <;> trivial

theorem isReading_expect (o : Object) (property expected : String) (x : Option α) :
    (expect o property expected x).IsReading := by
  cases x <;> trivial

/-- Numbers, texts and lists are read by a read and a check. -/
theorem isReading_getSingle? (o : Object) (property : String) :
    (getSingle? o property).IsReading := by
  refine (isReading_get o property).bind fun v => ?_
  split
  · trivial
  · exact (isReading_expect ..).bind fun _ => trivial

theorem isReading_getSingle (o : Object) (property : String) : (getSingle o property).IsReading :=
  (isReading_getSingle? o property).bind fun _ => isReading_expect ..

theorem isReading_getInt32 (o : Object) (property : String) : (getInt32 o property).IsReading :=
  (isReading_get o property).bind fun _ => isReading_expect ..

theorem isReading_getString? (o : Object) (property : String) :
    (getString? o property).IsReading := by
  refine (isReading_get o property).bind fun v => ?_
  split
  · trivial
  · exact (isReading_expect ..).bind fun _ => trivial

theorem isReading_getString (o : Object) (property : String) : (getString o property).IsReading :=
  (isReading_getString? o property).bind fun _ => isReading_expect ..

theorem isReading_getList (o : Object) (property : String) : (getList o property).IsReading := by
  refine (isReading_get o property).bind fun v => ?_
  split
  · trivial
  · exact isReading_expect ..

end Recipe

theorem Template.isReading_appliesTo (t : Template) (o : Object) : (t.appliesTo o).IsReading := by
  unfold appliesTo
  split
  · exact Recipe.isReading_getString? o _
  · trivial

end

section

open Number (Single)

/-- What is written about an opacity: it is assigned unless it is one. -/
def opacityAssignment (base : String) (opacity : Option Single) : List Statement :=
  ((opacity.filter Single.isOffOne).map fun x =>
    .assign (.field (.var base) "Opacity") (.literal (.single x))).toList

namespace Recipe

/-- Writing the opacity is reading it and then assigning it, when it is worth that. -/
theorem addOpacity_eq (o : Object) (name : String) :
    addOpacity o name =
      (getSingle? o "Opacity").bind fun opacity => addAll (opacityAssignment name opacity) := by
  refine congrArg (getSingle? o "Opacity").bind (funext fun opacity => ?_)
  cases opacity with
  | none => rfl
  | some x =>
    cases hx : x.isOffOne <;>
      simp [opacityAssignment, Statement.setMember, Option.filter, hx, add, addAll]

/-- A brush of one color without its opacity. -/
def solidColor (options : Options) (o : Object) (base : String) : Recipe Expr :=
  (get o "Color").bind fun current =>
    (nested current (options.nestedName base "Color")).bind fun color =>
      buildMembers base (.named "SolidColorBrush") [("Color", color)]

theorem solidColorBrush_eq (options : Options) (o : Object) (base : String) :
    solidColorBrush options (.object o) base =
      (solidColor options o base).bind fun brush =>
        (addOpacity o base).bind fun _ => .done brush := by
  simp only [solidColor, bind_assoc]
  rfl

/-- A linear gradient without its opacity. -/
def linearGradient (options : Options) (o : Object) (base : String) : Recipe Expr :=
  (gradientEnd options o base "StartPoint").bind fun start =>
    (gradientEnd options o base "EndPoint").bind fun finish =>
      (getList o "GradientStops").bind fun stops =>
        (forEach (gradientStop options base) stops.zipIdx).bind fun stops =>
          build base (.named "LinearGradientBrush") []
            ((start.toList ++ finish.toList).map
                (fun (member, value) => .setMember base member value)
              ++ stops.map (.add (.field (.var base) "GradientStops")))

theorem linearGradientBrush_eq (options : Options) (o : Object) (base : String) :
    linearGradientBrush options (.object o) base =
      (linearGradient options o base).bind fun brush =>
        (addOpacity o base).bind fun _ => .done brush := by
  have hends (start finish : Option (String × Expr)) :
      [start, finish].filterMap id = start.toList ++ finish.toList := by
    cases start <;> cases finish <;> rfl
  simp only [linearGradientBrush, linearGradient, forEach, asObject, bind_eq, pure_eq, bind_done,
    bind_assoc, hends]

end Recipe

end

/-- `Going` is kept by every step that an orderly recipe may take, and whenever one fails `Failed` holds. -/
structure Job.Keeps (j : Job) (emit : Emission) (scope : Scope) (Going : Hand → Workshop → Prop)
    (Failed : Workshop → Prop) : Prop where
  answer : ∀ {h w}, Going h w → ∀ o property,
    scope.heap.get o property w.generator.inProgress.length = j.answer o property
  push : ∀ {h w s}, Going h w → h.Allows j.base s → Going (h.push s) (w.push s)
  recorded : ∀ {h w key e}, Going h w → scope.recorded? key = some e → Going (h.addRecorded e) w
  emitted : ∀ {h w member v e w'}, Going h w → h.declared = false → j.owned v →
    emit scope v (j.options.nestedName j.base member) w = some (.ok e, w') →
    Going (h.add { member, value := v } e) w'
  factory : ∀ {h w name v e w'}, Going h w → h.declared = false → j.owned v →
    emit.inMethod (.factory name) scope v (j.options.nestedName j.base "Root") w = some (.ok e, w') →
    name = w.target.freeName w.current.name (j.base ++ "_Factory") →
    Going (h.add (.root v) (.methodGroup name)) w'
  emitFailed : ∀ {h w member v e w'}, Going h w → h.declared = false → j.owned v →
    emit scope v (j.options.nestedName j.base member) w = some (.error e, w') → Failed w'
  factoryFailed : ∀ {h w name v e w'}, Going h w → h.declared = false → j.owned v →
    emit.inMethod (.factory name) scope v (j.options.nestedName j.base "Root") w =
      some (.error e, w') → Failed w'
  blamed : ∀ {h w}, Going h w → Failed w

/-- By induction on the recipe: every step keeps what is known on the way, and every failure is one that is
known. -/
theorem Recipe.Orderly.follow {α : Type} {j : Job} {emit : Emission} {run : Emitter → Emission}
    {scope : Scope} {Going : Hand → Workshop → Prop} {Failed : Workshop → Prop} {recipe : Recipe α}
    {h : Hand} {Q : α → Hand → Prop} {w w' : Workshop} {r : Except EmitError α}
    (hkeeps : j.Keeps emit scope Going Failed) (ho : recipe.Orderly j h Q) (hw : Going h w)
    (hr : recipe.follow emit run scope w = some (r, w')) :
    (∃ a k, r = .ok a ∧ Q a k ∧ Going k w') ∨ ∃ e, r = .error e ∧ Failed w' := by
  induction recipe generalizing h w with
  | done a =>
    cases hr
    exact .inl ⟨a, h, rfl, ho, hw⟩
  | fail e =>
    cases hr
    exact .inr ⟨e, rfl, hkeeps.blamed hw⟩
  | push s next ih => exact ih ho.2 (hkeeps.push hw ho.1) hr
  | read o property next ih =>
    rw [Recipe.follow, hkeeps.answer hw] at hr
    exact ih _ ho.2 hw hr
  | emit v name next ih =>
    obtain ⟨hv, hd, member, rfl, hfail, hok⟩ := ho
    obtain ⟨⟨x, w₁⟩, hx, hnext⟩ := Option.bind_eq_some_iff.mp hr
    cases x with
    | ok e => exact ih _ (hok e) (hkeeps.emitted hw hd hv hx) hnext
    | error e =>
      rw [hfail] at hnext
      cases hnext
      exact .inr ⟨e, rfl, hkeeps.emitFailed hw hd hv hx⟩
  | delegate type v name next ih => exact ho.elim
  | recorded key next ih =>
    rw [Recipe.follow] at hr
    cases hk : scope.recorded? key with
    | none =>
      rw [hk] at hr
      exact ih _ ho.1 hw hr
    | some e =>
      rw [hk] at hr
      exact ih _ (ho.2 e) (hkeeps.recorded hw hk) hr
  | factory stem content root next ih =>
    obtain ⟨rfl, rfl, hc, hd, hfail, hok⟩ := ho
    obtain ⟨⟨x, w₁⟩, hx, hnext⟩ := Option.bind_eq_some_iff.mp hr
    cases x with
    | ok e => exact ih _ (hok _) (hkeeps.factory hw hd hc hx rfl) hnext
    | error e =>
      simp only [Except.map] at hnext
      rw [hfail] at hnext
      cases hnext
      exact .inr ⟨e, rfl, hkeeps.factoryFailed hw hd hc hx⟩

/-- The run comes to an end. On success the statements are added to the current method, and `Q` holds of the
result and the statements; `E` holds of the error otherwise. -/
def Workshop.Concludes {α : Type} (w : Workshop) (clean : Generator → Class → Prop)
    (Q : α → List Statement → Prop) (E : EmitError → Prop) (x : Option (Outcome α)) : Prop :=
  (∃ a w' statements, x = some (.ok a, w') ∧ w'.current.body = w.current.body ++ statements ∧
    clean w'.generator w'.target ∧ Q a statements) ∨
  ∃ e w', x = some (.error e, w') ∧ clean w'.generator w'.target ∧ E e

/-- More may be admitted, both of results and of errors. -/
theorem Workshop.Concludes.mono {α : Type} {w : Workshop} {clean : Generator → Class → Prop}
    {Q Q' : α → List Statement → Prop} {E E' : EmitError → Prop} {x : Option (Outcome α)}
    (h : w.Concludes clean Q E x) (hQ : ∀ a statements, Q a statements → Q' a statements)
    (hE : ∀ e, E e → E' e) : w.Concludes clean Q' E' x := by
  rcases h with ⟨a, w', statements, hx, hbody, hclean, ha⟩ | ⟨e, w', hx, hclean, he⟩
  · exact .inl ⟨a, w', statements, hx, hbody, hclean, hQ a statements ha⟩
  · exact .inr ⟨e, w', hx, hclean, hE e he⟩

namespace Recipe

variable {α β γ δ : Type} {emit : Emission} {run : Emitter → Emission} {scope : Scope}
  {clean : Generator → Class → Prop} {w : Workshop} {Q : β → List Statement → Prop}
  {E : EmitError → Prop}

/-- Following one recipe and then another. -/
theorem follow_bind (recipe : Recipe α) (f : α → Recipe β) (w : Workshop) :
    (recipe.bind f).follow emit run scope w =
      (recipe.follow emit run scope w).bind fun (r, w) =>
        match r with
        | .ok a => (f a).follow emit run scope w
        | .error e => some (.error e, w) := by
  induction recipe generalizing w with
  | done a => rfl
  | fail e => rfl
  | push s next ih => exact ih (w.push s)
  | read o property next ih => exact ih _ w
  | emit v base next ih => simp only [bind, follow, Option.bind_assoc, ih]
  | delegate type v base next ih =>
    simp only [bind, follow]
    cases w.generator.registry.find? type with
    | some e => simp only [Option.bind_assoc, ih]
    | none => exact ih _ w
  | recorded key next ih => exact ih _ w
  | factory stem content root next ih => simp only [bind, follow, Option.bind_assoc, ih]

theorem concludes_done {b : β} (hw : clean w.generator w.target) (hQ : Q b []) :
    w.Concludes clean Q E ((done b).follow emit run scope w) :=
  .inl ⟨b, w, [], rfl, by simp, hw, hQ⟩

/-- After one recipe another one: the statements of both come one after the other. -/
theorem concludes_bind {recipe : Recipe α} {f : α → Recipe β} {P : α → List Statement → Prop}
    (hrecipe : w.Concludes clean P E (recipe.follow emit run scope w))
    (hf : ∀ a statements (w' : Workshop), P a statements → clean w'.generator w'.target →
      w'.Concludes clean (fun b more => Q b (statements ++ more)) E
        ((f a).follow emit run scope w')) :
    w.Concludes clean Q E ((recipe.bind f).follow emit run scope w) := by
  rcases hrecipe with ⟨a, w', statements, hfollow, hbody, hclean, hP⟩ | ⟨e, w', hfollow, herror⟩
  · have hbind : (recipe.bind f).follow emit run scope w = (f a).follow emit run scope w' := by
      rw [follow_bind, hfollow]
      rfl
    rcases hf a statements w' hP hclean with
      ⟨b, w'', more, hfollow', hbody', hclean', hQ⟩ | ⟨e, w'', hfollow', herror⟩
    · refine .inl ⟨b, w'', statements ++ more, hbind.trans hfollow', ?_, hclean', hQ⟩
      rw [hbody', hbody, List.append_assoc]
    · exact .inr ⟨e, w'', hbind.trans hfollow', herror⟩
  · refine .inr ⟨e, w', ?_, herror⟩
    rw [follow_bind, hfollow]
    rfl

/-- A nested emission comes to an end as the emission does. -/
theorem concludes_nested {Q : Expr → List Statement → Prop} {v : Value} {base : String}
    (h : w.Concludes clean Q E (emit scope v base w)) :
    w.Concludes clean Q E ((nested v base).follow emit run scope w) := by
  rcases h with ⟨e, w', statements, hemit, hrest⟩ | ⟨e, w', hemit, hrest⟩
  · refine .inl ⟨e, w', statements, ?_, hrest⟩
    rw [nested, follow, hemit]
    rfl
  · refine .inr ⟨e, w', ?_, hrest⟩
    rw [nested, follow, hemit]
    rfl

theorem concludes_get {o : Object} {property : String} {v : Value}
    (hw : clean w.generator w.target)
    (hread : scope.heap.get o property w.generator.inProgress.length = .ok v) :
    w.Concludes clean (fun x statements => x = v ∧ statements = []) E
      ((get o property).follow emit run scope w) := by
  refine .inl ⟨v, w, [], ?_, by simp, hw, rfl, rfl⟩
  rw [get, follow, hread]
  rfl

theorem concludes_addAll (statements : List Statement) (hw : clean w.generator w.target) :
    w.Concludes clean (fun _ added => added = statements) E
      ((addAll statements).follow emit run scope w) := by
  induction statements generalizing w with
  | nil => exact concludes_done hw rfl
  | cons s rest ih =>
    rcases ih (w := w.push s) hw with ⟨u, w', added, hfollow, hbody, hclean, rfl⟩ | herror
    · refine .inl ⟨u, w', s :: added, hfollow, ?_, hclean, rfl⟩
      rw [hbody]
      simp [Workshop.push]
    · exact .inr herror

theorem concludes_build {Q : Expr → List Statement → Prop} {name : String} {t : TypeRef}
    {args : List Expr} {more : List Statement} (hw : clean w.generator w.target)
    (hQ : Q (.var name) (.declare name t (some (.new t args)) :: more)) :
    w.Concludes clean Q E ((build name t args more).follow emit run scope w) := by
  have hdeclare : w.Concludes clean _ E
      ((addAll [.declare name t (some (.new t args))]).follow emit run scope w) :=
    concludes_addAll _ hw
  refine concludes_bind hdeclare fun _ _ w₁ hadded hw₁ => ?_
  refine concludes_bind (concludes_addAll more hw₁) fun _ _ w₂ hadded₂ hw₂ => ?_
  subst hadded hadded₂
  exact concludes_done hw₂ (by simpa using hQ)

/-- A recipe for each item, when each of them leads to something that bears the label of its item and from which
the result and the statements can be read. -/
theorem concludes_forEach {κ : Type} {f : α → Recipe γ} (label : α → κ) (labelled : δ → κ)
    (sound : δ → Prop) (result : δ → γ) (code : δ → List Statement) {items : List α}
    (hw : clean w.generator w.target)
    (hstep : ∀ a ∈ items, ∀ w : Workshop, clean w.generator w.target →
      w.Concludes clean (fun x statements => ∃ d, labelled d = label a ∧ sound d ∧ x = result d ∧
        statements = code d) E ((f a).follow emit run scope w)) :
    w.Concludes clean (fun xs statements => ∃ ds : List δ, ds.map labelled = items.map label ∧
        (∀ d ∈ ds, sound d) ∧ xs = ds.map result ∧ statements = ds.flatMap code) E
      ((forEach f items).follow emit run scope w) := by
  induction items generalizing w with
  | nil => exact concludes_done hw ⟨[], rfl, by simp, rfl, rfl⟩
  | cons a rest ih =>
    refine concludes_bind (hstep a List.mem_cons_self w hw) fun x _ w₁ hx hw₁ => ?_
    have hrest := ih hw₁ fun b hb => hstep b (List.mem_cons_of_mem a hb)
    refine concludes_bind hrest fun xs _ w₂ hxs hw₂ => concludes_done hw₂ ?_
    obtain ⟨d, hlabel, hsound, rfl, rfl⟩ := hx
    obtain ⟨ds, hlabels, hsounds, rfl, rfl⟩ := hxs
    refine ⟨d :: ds, by simp [hlabel, hlabels], ?_, rfl, by simp⟩
    intro e he
    rcases List.mem_cons.mp he with rfl | he
    · exact hsound
    · exact hsounds e he

end Recipe

/-- A blueprint has the properties of an object emitted one by one, and then the object is built. -/
theorem Blueprint.recipe_object (b : Blueprint) (options : Options) (o : Object) (base : String) :
    b.recipe options (.object o) base =
      (Recipe.forEach (member options o base) b.carried).bind
        (Recipe.buildMembers base (.ofName b.type.name)) := rfl

end ResourceCode
