import ResourceCode.Proofs.Code.Scoping
import ResourceCode.Proofs.Emission.Opening
import ResourceCode.Proofs.Recipe.Following

/-!
Generated code mentions only what it has declared. Emitters put their statements together out of the local
they declare and the expressions they are given, so it is enough that recorded expressions fit the method
they are used in: inside a factory only those that mention no local and no `this` are given out.
-/

namespace ResourceCode

/-- What resources are referred to by may stand in the method. -/
def Scope.Fits (s : Scope) (m : Method) : Prop :=
  ∀ key e, s.recorded? key = some e → e.Scoped s.nested m.locals

theorem Scope.fits_of_nested {s : Scope} (h : s.nested = true) (m : Method) : s.Fits m := by
  intro key e he
  have hbound := (Option.filter_eq_some_iff.mp he).2
  rw [h, Bool.true_and, Bool.not_eq_true'] at hbound
  exact Expr.scoped_of_isMethodBound hbound

theorem Method.locals_subset_append (m : Method) (statements : List Statement) {x : String}
    (hx : x ∈ m.locals) : x ∈ { m with body := m.body ++ statements }.locals := by
  simp only [Method.locals, Statement.localsOf, List.filterMap_append, List.mem_append]
  exact .inl hx

namespace Workshop

/-- A local that has been declared stays declared. -/
theorem Grows.locals_subset {w w' : Workshop} (h : w.Grows w') {x : String}
    (hx : x ∈ w.current.locals) : x ∈ w'.current.locals := by
  obtain ⟨statements, hs⟩ := h.current
  rw [hs]
  exact w.current.locals_subset_append statements hx

/-- The current method is scoped, and so are the methods that have joined the class since it had the old ones. -/
structure Scoped (static : Bool) (old : List Method) (w : Workshop) : Prop where
  current : w.current.Scoped static
  target : ∃ factories, w.target.methods = old ++ factories ∧ ∀ m ∈ factories, m.Scoped true
  registry : w.generator.registry.Within (fun _ => True) w.generator.options.order

end Workshop

/-- An emission after which everything is scoped when it was before. -/
def Emission.KeepsScopes (emission : Emission) : Prop :=
  ∀ ⦃scope v base w r w' old⦄, scope.Fits w.current → w.Scoped scope.nested old →
    emission scope v base w = some (r, w') →
    w'.Scoped scope.nested old ∧ ∀ e, r = .ok e → e.Scoped scope.nested w'.current.locals

/-- What is emitted into a factory stays in it. -/
theorem Emission.KeepsScopes.inMethod {emission : Emission} (h : emission.KeepsScopes) {m : Method}
    (hm : m.body = []) {scope : Scope} {v : Value} {base : String} {w w' : Workshop}
    {r : Except EmitError Expr} {static : Bool} {old : List Method} (hw : w.Scoped static old)
    (hr : emission.inMethod m scope v base w = some (r, w')) : w'.Scoped static old := by
  obtain ⟨⟨r₁, w₁⟩, hw₁, heq⟩ := Option.map_eq_some_iff.mp hr
  have hstart : Workshop.Scoped true old { w with current := m } :=
    ⟨Method.scoped_of_body_eq_nil hm, hw.target, hw.registry⟩
  obtain ⟨⟨hcurrent, ⟨factories, htarget, hf⟩, hregistry⟩, hresult⟩ :=
    h (Scope.fits_of_nested rfl m) hstart hw₁
  cases r₁ with
  | ok e =>
    cases heq
    have hret := hcurrent.push (s := .ret (some e)) fun x hx =>
      List.mem_singleton.mp hx ▸ hresult e rfl
    refine ⟨hw.current, ⟨factories ++ [_], by rw [Class.methods_add, htarget, List.append_assoc],
      fun f hmem => ?_⟩, hregistry⟩
    rcases List.mem_append.mp hmem with hmem | hmem
    · exact hf f hmem
    · exact List.mem_singleton.mp hmem ▸ hret
  | error e =>
    cases heq
    exact ⟨hw.current, ⟨factories, htarget, hf⟩, hregistry⟩

/-- What an emitter has been given may stand in the method. -/
structure Hand.Fits (h : Hand) (base : String) (static : Bool) (locals : List String) : Prop where
  given : ∀ x ∈ h.given, x.2.Scoped static locals
  recorded : ∀ e ∈ h.recorded, e.Scoped static locals
  declared : h.declared = true → base ∈ locals

namespace Hand

variable {h : Hand} {base : String} {static : Bool} {locals more : List String} {e : Expr}

/-- What fits goes on fitting when more locals are declared. -/
theorem Fits.mono (hf : h.Fits base static locals) (hm : ∀ x ∈ locals, x ∈ more) :
    h.Fits base static more :=
  ⟨fun x hx => (hf.given x hx).mono hm, fun e he => (hf.recorded e he).mono hm,
    fun hd => hm base (hf.declared hd)⟩

/-- The expressions of a statement that may be written are put together out of what has been given. -/
theorem Allows.makes {s : Statement} (hs : h.Allows base s) : ∀ e ∈ s.expressions, h.Makes base e := by
  intro e he
  cases s with
  | declare name type value => exact hs.2.2 e (Option.mem_toList.mp he)
  | assign target value =>
    rcases List.mem_cons.mp he with rfl | he
    · exact hs.1
    · exact List.mem_singleton.mp he ▸ hs.2
  | expr e' =>
    have hmakes : h.Makes base e' := hs
    exact List.mem_singleton.mp he ▸ hmakes
  | ret value => exact hs.elim

/-- What is put together out of fitting expressions fits. -/
theorem scoped_of_makes (he : h.Makes base e) (hf : h.Fits base static locals) :
    e.Scoped static locals := by
  induction he with
  | given hm => exact hf.given _ hm
  | recorded hm => exact hf.recorded _ hm
  | var hd => exact Expr.scoped_var (hf.declared hd)
  | literal l => exact Expr.scoped_of_isMethodBound rfl
  | type t => exact Expr.scoped_of_isMethodBound rfl
  | typeOf t => exact Expr.scoped_of_isMethodBound rfl
  | field name _ ih => exact ih.field name
  | new t _ ih => exact Expr.scoped_new t ih
  | call method _ _ iht iha => exact iht.call method iha

/-- A statement that may be written uses only fitting expressions. -/
theorem scoped_of_allows {s : Statement} (hs : h.Allows base s) (hf : h.Fits base static locals) :
    ∀ e ∈ s.expressions, e.Scoped static locals :=
  fun e he => scoped_of_makes (hs.makes e he) hf

theorem Fits.add (hf : h.Fits base static locals) (he : e.Scoped static locals) (p : Part) :
    (h.add p e).Fits base static locals := by
  refine ⟨fun x hx => ?_, hf.recorded, hf.declared⟩
  rcases List.mem_append.mp hx with hx | hx
  · exact hf.given x hx
  · exact List.mem_singleton.mp hx ▸ he

theorem Fits.addRecorded (hf : h.Fits base static locals) (he : e.Scoped static locals) :
    (h.addRecorded e).Fits base static locals := by
  refine ⟨hf.given, fun x hx => ?_, hf.declared⟩
  rcases List.mem_append.mp hx with hx | hx
  · exact hf.recorded x hx
  · exact List.mem_singleton.mp hx ▸ he

/-- After a statement its local may be used as well. -/
theorem Fits.push {s : Statement} (hf : h.Fits base static locals) (hs : h.Allows base s) :
    (h.push s).Fits base static (locals ++ s.declared?.toList) := by
  have hmore : h.Fits base static (locals ++ s.declared?.toList) :=
    hf.mono fun x hx => List.mem_append_left _ hx
  refine ⟨hmore.given, hmore.recorded, fun hd => ?_⟩
  cases s with
  | declare name type value =>
    obtain ⟨rfl, -⟩ := hs
    simp [Statement.declared?]
  | _ => exact hmore.declared (by simpa [Hand.push, Statement.declared?] using hd)

end Hand

/-- An emission as a job, of which only the reads matter. -/
def Scope.job (scope : Scope) (options : Options) (base : String) (reading : Nat) : Job where
  options
  base
  answer o property := scope.heap.get o property reading
  owned _ := True
  owned_read _ _ := trivial
  owned_item _ _ := trivial

/-- Halfway through a recipe. -/
structure Workshop.Amid (scope : Scope) (base : String) (reading : Nat) (old : List Method) (h : Hand)
    (w : Workshop) : Prop where
  code : w.Scoped scope.nested old
  fits : scope.Fits w.current
  hand : h.Fits base scope.nested w.current.locals
  reading : w.generator.inProgress.length = reading

namespace Workshop

variable {scope : Scope} {base : String} {reading : Nat} {old : List Method} {h : Hand}
  {w w' : Workshop}

/-- Going on in a later workshop that is still scoped. -/
theorem Amid.grows (hw : w.Amid scope base reading old h) (hgrows : w.Grows w')
    (hscoped : w'.Scoped scope.nested old) : w'.Amid scope base reading old h where
  code := hscoped
  fits key e he := (hw.fits key e he).mono fun _ => hgrows.locals_subset
  hand := hw.hand.mono fun _ => hgrows.locals_subset
  reading := by rw [hgrows.inProgress, hw.reading]

theorem Amid.push (hw : w.Amid scope base reading old h) {s : Statement} (hs : h.Allows base s) :
    (w.push s).Amid scope base reading old (h.push s) := by
  have hscoped : (w.push s).Scoped scope.nested old :=
    ⟨hw.code.current.push (Hand.scoped_of_allows hs hw.hand), hw.code.target, hw.code.registry⟩
  have hamid := hw.grows (w.grows_push s) hscoped
  have hlocals : (w.push s).current.locals = w.current.locals ++ s.declared?.toList :=
    w.current.locals_push s
  refine ⟨hamid.code, hamid.fits, ?_, hamid.reading⟩
  rw [hlocals]
  exact hw.hand.push hs

end Workshop

/-- Every step of an orderly recipe keeps what is known halfway through. -/
theorem Scope.keeps_amid {emission : Emission} (hkeeps : emission.KeepsScopes)
    (hsteady : emission.Steady) (scope : Scope) (options : Options) (base : String) (reading : Nat)
    (old : List Method) :
    (scope.job options base reading).Keeps emission scope
      (fun h w => w.Amid scope base reading old h) (fun w => w.Scoped scope.nested old) where
  answer hw o property := by rw [hw.reading]; rfl
  push hw hs := hw.push hs
  recorded hw he := ⟨hw.code, hw.fits, hw.hand.addRecorded (hw.fits _ _ he), hw.reading⟩
  emitted hw _ _ hr := by
    obtain ⟨hscoped, hresult⟩ := hkeeps hw.fits hw.code hr
    have hamid := hw.grows (hsteady hr) hscoped
    exact ⟨hamid.code, hamid.fits, hamid.hand.add (hresult _ rfl) _, hamid.reading⟩
  factory hw _ _ hr _ := by
    have hamid := hw.grows (hsteady.inMethod _ hr).1 (hkeeps.inMethod rfl hw.code hr)
    refine ⟨hamid.code, hamid.fits, hamid.hand.add ?_ _, hamid.reading⟩
    exact Expr.scoped_of_isMethodBound rfl
  emitFailed hw _ _ hr := (hkeeps hw.fits hw.code hr).1
  factoryFailed hw _ _ hr := hkeeps.inMethod rfl hw.code hr
  blamed hw := hw.code

namespace Generator

/-- Emitting a value keeps everything scoped when running the emitters of the generator does. -/
theorem emitVia_keepsScopes {run : Emitter → Emission}
    (hrun : ∀ e, e.IsOwn → (run e).KeepsScopes) : (emitVia run).KeepsScopes := by
  intro scope v base w r w' old hfits hw hr
  rw [emitVia_eq] at hr
  have hopens := w.generator.opens v
  generalize w.generator.opening v = opening at hopens hr
  cases hopens with
  | settled r' hstandalone =>
    cases hr
    exact ⟨hw, fun e he => Expr.scoped_of_isMethodBound (hstandalone e he).1⟩
  | @runs e g _ hoptions _ hcharge =>
    obtain ⟨⟨r₁, w₁⟩, hw₁, heq⟩ := Option.map_eq_some_iff.mp hr
    cases heq
    have hregistry := hcharge.within hw.registry fun _ _ _ => trivial
    have hstart : Workshop.Scoped scope.nested old (w.withGenerator g) :=
      ⟨hw.current, hw.target, hoptions ▸ hregistry⟩
    have hfits' : scope.Fits (w.withGenerator g).current := hfits
    obtain ⟨hscoped, hresult⟩ := hrun e (hcharge.isOwn hw.registry) hfits' hstart hw₁
    cases v with
    | object o => exact ⟨⟨hscoped.current, hscoped.target, hscoped.registry⟩, hresult⟩
    | _ => exact ⟨hscoped, hresult⟩

/-- By induction on the depth, along the anatomy of the emitter. -/
theorem runWithin_keepsScopes (depth : Nat) {e : Emitter} (he : e.IsOwn) :
    (runWithin depth e).KeepsScopes := by
  induction depth generalizing e with
  | zero =>
    intro scope v base w r w' old hfits hw hr
    cases hr
  | succ depth ih =>
    intro scope v base w r w' old hfits hw hr
    have hkeeps := scope.keeps_amid (emitVia_keepsScopes fun e he => ih he)
      (emitVia_steady (runWithin_steady depth)) w.generator.options base
      w.generator.inProgress.length old
    have horderly := Emitter.orderly (j := scope.job w.generator.options base
      w.generator.inProgress.length) (v := v) he trivial
    have hamid : w.Amid scope base w.generator.inProgress.length old {} :=
      ⟨hw, hfits, ⟨nofun, nofun, nofun⟩, rfl⟩
    obtain ⟨e, k, rfl, hfinishes, hk⟩ | ⟨x, rfl, hscoped⟩ := horderly.follow hkeeps hamid hr
    · refine ⟨hk.code, fun e' he' => ?_⟩
      cases he'
      exact Hand.scoped_of_makes hfinishes.1 hk.hand
    · exact ⟨hscoped, nofun⟩

theorem emit_keepsScopes : emit.KeepsScopes := by
  intro scope v base w r w' old hfits hw hr
  have hrun (e : Emitter) (he : e.IsOwn) := runWithin_keepsScopes (depthBound scope.heap v) he
  exact emitVia_keepsScopes hrun hfits hw hr

end Generator

namespace Session

/-- Emits an entry of a dictionary into the current method, and records its expression under its key when
that succeeds. -/
def enter (s : Session) (heap : Heap) (key : String) (v : Value) (base : String) :
    Option (Except EmitError Expr × Session) :=
  (s.emit heap true v base).map fun (emitted, s) =>
    match emitted.result with
    | .ok e => (.ok e, (s.record key e).2)
    | .error x => (.error x, s)

/-- The sessions in which nothing has been done but to enter values, with the expressions returned for them. -/
inductive Entered (options : Options) (target : Class) (method : Method) :
    Session → List Expr → Prop
  | start : Entered options target method (start options target method) []
  | entry {s returned heap key v base r s'} : Entered options target method s returned →
      s.enter heap key v base = some (r, s') →
      Entered options target method s' (returned ++ r.toOption.toList)

variable {options : Options} {target : Class} {method : Method} {s : Session}
  {returned : List Expr}

/-- Entering a value is emitting it, and recording the expression when there is one. -/
theorem enter_cases {s s' : Session} {heap : Heap} {key : String} {v : Value} {base : String}
    {r : Except EmitError Expr} (h : s.enter heap key v base = some (r, s')) :
    Generator.emit (s.scope heap true) v base s.workshop = some (r, s'.workshop) ∧
      s'.resources = match r with
        | .ok e => s.resources.record key e
        | .error _ => s.resources := by
  obtain ⟨⟨emitted, s₁⟩, hs, heq⟩ := Option.map_eq_some_iff.mp h
  obtain ⟨⟨r₁, w₁⟩, hw, heq₁⟩ := Option.map_eq_some_iff.mp hs
  cases heq₁
  cases r₁ with
  | ok e =>
    cases heq
    exact ⟨hw, rfl⟩
  | error x =>
    cases heq
    exact ⟨hw, rfl⟩

/-- Everything is scoped in an entered session, and whatever has been returned or recorded may stand at the end
of the method. -/
theorem entered_scopes (hbody : method.body = []) (h : Entered options target method s returned) :
    s.workshop.Scoped false target.methods ∧
      (∀ e ∈ returned, e.Scoped false s.workshop.current.locals) ∧
      ∀ key e, s.resources.find? key = some e → e ∈ returned := by
  induction h with
  | start =>
    have hstart : (start options target method).workshop.Scoped false target.methods :=
      ⟨Method.scoped_of_body_eq_nil hbody, ⟨[], by simp [start], nofun⟩,
        Registry.within_builtin _ _⟩
    exact ⟨hstart, nofun, nofun⟩
  | @entry s returned heap key v base r s' _ hs ih =>
    obtain ⟨hw, hreturned, hresources⟩ := ih
    obtain ⟨hemit, hrecord⟩ := enter_cases hs
    -- what has been recorded has also been returned, so it fits the method
    have hfits : (s.scope heap true).Fits s.workshop.current := by
      intro key e he
      exact hreturned e (hresources key e (Option.filter_eq_some_iff.mp he).1)
    obtain ⟨hw', hresult⟩ := Generator.emit_keepsScopes hfits hw hemit
    have hgrows := Generator.emit_grows hemit
    refine ⟨hw', fun e he => ?_, fun key' e he => ?_⟩
    · rcases List.mem_append.mp he with he | he
      · exact (hreturned e he).mono fun _ => hgrows.locals_subset
      · cases r with
        | ok e' => exact List.mem_singleton.mp he ▸ hresult e' rfl
        | error x => cases he
    · cases r with
      | ok e' =>
        rw [hrecord, Resources.find?_record] at he
        split at he
        · cases he
          exact List.mem_append_right _ List.mem_cons_self
        · exact List.mem_append_left _ (hresources key' e he)
      | error x =>
        rw [hrecord] at he
        exact List.mem_append_left _ (hresources key' e he)

/-- In an entered session every variable of the method, of a returned expression and of a factory that has
joined the class is declared before it is mentioned, and no factory mentions `this`. -/
theorem variables_declared (hbody : method.body = [])
    (h : Entered options target method s returned) :
    s.workshop.current.Scoped false ∧
      (∀ e ∈ returned, ∀ x ∈ e.vars, x ∈ s.workshop.current.locals) ∧
      ∃ factories, s.workshop.target.methods = target.methods ++ factories ∧
        ∀ m ∈ factories, m.Scoped true := by
  obtain ⟨hw, hreturned, -⟩ := entered_scopes hbody h
  exact ⟨hw.current, fun e he => (hreturned e he).vars, hw.target⟩

/-- A list, and a template that refers to it. -/
def referringHeap : Heap :=
  ⟨#[{ values := [("VisualTree", .list [.object { cell := 1, type := KnownType.resourceReference.descriptor }])] },
    { values := [("ResourceKey", .string "sizes")] }]⟩

def referringTemplate : Value := .object { cell := 0, type := KnownType.dataTemplate.descriptor }

theorem variables_declared_referring :
    ∃ s returned, Entered {} { name := "Dictionary1" } { name := "InitializeResources" } s returned ∧
      returned.length = 2 ∧
      s.workshop.current.Scoped false ∧
        (∀ e ∈ returned, ∀ x ∈ e.vars, x ∈ s.workshop.current.locals) ∧
        ∃ factories, s.workshop.target.methods = [] ++ factories ∧
          ∀ m ∈ factories, m.Scoped true := by
  have hsome : (((start {} { name := "Dictionary1" } { name := "InitializeResources" }).enter {}
      "sizes" (.list []) "sizes").bind fun x =>
        (x.2.enter referringHeap "item" referringTemplate "item").map fun y =>
          x.1.isOk && y.1.isOk) = some true := by
    decide +kernel
  obtain ⟨⟨r, s⟩, hs, hsome⟩ := Option.bind_eq_some_iff.mp hsome
  obtain ⟨⟨r', s'⟩, hs', hok⟩ := Option.map_eq_some_iff.mp hsome
  have hentered := (Entered.start.entry hs).entry hs'
  refine ⟨s', _, hentered, ?_, variables_declared rfl hentered⟩
  cases r <;> cases r' <;> simp_all [Except.isOk, Except.toBool, Except.toOption]

end Session

end ResourceCode
