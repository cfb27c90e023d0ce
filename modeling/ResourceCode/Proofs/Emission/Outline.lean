import ResourceCode.Proofs.Emission.Scoping

/-!
Which locals the code for a value has. They are found by walking through the value alone: a local stands for
each value whose emitter declares one, and is known by the path of member names that leads to it. The name in
the code is that path joined to the base name, every step with the separator and made an identifier.

Nothing in this keeps two paths from being joined to the same name, and then the local is declared twice. So
it has to be said exactly: no local of a method is declared twice when, and only when, the paths of the
outline are joined to distinct names.
-/

namespace ResourceCode

/-- The paths of the locals of a value in the order of declaration: those in its own method, and those in the
factories that are made for it. -/
structure Outline where
  locals : List (List String) := []
  factories : List (List (List String)) := []

namespace Outline

def append (a b : Outline) : Outline := ⟨a.locals ++ b.locals, a.factories ++ b.factories⟩

/-- As seen from a value that has it under a member. -/
def under (member : String) (o : Outline) : Outline :=
  ⟨o.locals.map (member :: ·), o.factories.map (·.map (member :: ·))⟩

/-- With its own locals in a factory. -/
def apart (o : Outline) : Outline := ⟨[], o.factories ++ [o.locals]⟩

def ofPart (p : Part) (o : Outline) : Outline := (if p.apart then o.apart else o).under p.member

/-- With the local of the value itself, if it has one, after those of its parts. -/
def close (hasLocal : Bool) (o : Outline) : Outline :=
  { o with locals := o.locals ++ if hasLocal then [[]] else [] }

end Outline

def Heap.answers (heap : Heap) (reading : Nat) : Answers :=
  fun o property => heap.get o property reading

/-- How many objects are in progress inside a value, when there are `n` around it. -/
def Value.progress (n : Nat) : Value → Nat
  | .object _ => n + 1
  | _ => n

section

variable (heap : Heap) (order : PropertyOrder)

mutual

/-- The outline of a value, with `n` objects in progress. The registry decides which emitter is in charge, and
gets the drafts of the types on the way. -/
inductive Outlines : Nat → Registry → Value → Outline → Registry → Prop
  | aside {n r v} : (∀ e s, ¬ r.InCharge order v e s) → Outlines n r v {} r
  | runs {n r v e s o t} : r.InCharge order v e s →
      OutlinesAll (v.progress n) s (e.anatomy (heap.answers (v.progress n)) v).parts o t →
      Outlines n r v (o.close (e.anatomy (heap.answers (v.progress n)) v).hasLocal) t

inductive OutlinesAll : Nat → Registry → List Part → Outline → Registry → Prop
  | nil {n r} : OutlinesAll n r [] {} r
  | cons {n r p o s rest more t} : Outlines n r p.value o s → OutlinesAll n s rest more t →
      OutlinesAll n r (p :: rest) ((o.ofPart p).append more) t

end

end

section

variable {heap : Heap} {order : PropertyOrder}

/-- One emitter at most is in charge of a value. -/
theorem Registry.InCharge.unique {r s t : Registry} {v : Value} {e f : Emitter}
    (h : r.InCharge order v e s) (h' : r.InCharge order v f t) : e = f ∧ s = t := by
  cases h with
  | registered htype hf =>
    cases h' with
    | registered htype' hf' => simp_all
    | drafted hnone => simp_all [Value.typeName?]
  | drafted hnone =>
    cases h' with
    | registered htype' hf' => simp_all [Value.typeName?]
    | drafted => exact ⟨rfl, rfl⟩

mutual

/-- A value has one outline only. -/
theorem Outlines.unique {n : Nat} {r s t : Registry} {v : Value} {o o' : Outline} :
    Outlines heap order n r v o s → Outlines heap order n r v o' t → o = o' ∧ s = t
  | .aside _, .aside _ => ⟨rfl, rfl⟩
  | .aside h, .runs hcharge _ => absurd hcharge (h _ _)
  | .runs hcharge _, .aside h => absurd hcharge (h _ _)
  | .runs hcharge hparts, .runs hcharge' hparts' => by
    obtain ⟨rfl, rfl⟩ := hcharge.unique hcharge'
    obtain ⟨rfl, rfl⟩ := OutlinesAll.unique hparts hparts'
    exact ⟨rfl, rfl⟩

theorem OutlinesAll.unique {n : Nat} {r s t : Registry} {ps : List Part} {o o' : Outline} :
    OutlinesAll heap order n r ps o s → OutlinesAll heap order n r ps o' t → o = o' ∧ s = t
  | .nil, .nil => ⟨rfl, rfl⟩
  | .cons h hrest, .cons h' hrest' => by
    obtain ⟨rfl, rfl⟩ := h.unique h'
    obtain ⟨rfl, rfl⟩ := hrest.unique hrest'
    exact ⟨rfl, rfl⟩

end

/-- An outline of parts goes on with that of one more part. -/
theorem OutlinesAll.concat {n : Nat} {r s t : Registry} {ps : List Part} {p : Part}
    {o last : Outline} (hps : OutlinesAll heap order n r ps o s)
    (hp : Outlines heap order n s p.value last t) :
    OutlinesAll heap order n r (ps ++ [p]) (o.append (last.ofPart p)) t := by
  induction ps generalizing r o with
  | nil =>
    cases hps
    have hone := OutlinesAll.cons hp .nil
    simpa [Outline.append] using hone
  | cons q rest ih =>
    cases hps with
    | cons hq hrest =>
      have hmore := OutlinesAll.cons hq (ih hrest)
      simpa [Outline.append] using hmore

end

/-- The name of a local by its path. -/
def Options.localName (o : Options) (base : String) (path : List String) : String :=
  path.foldl o.nestedName base

/-- From one workshop to another by the locals of an outline, and by nothing else that matters to locals. -/
structure Workshop.Declares (options : Options) (base : String) (o : Outline) (w w' : Workshop) :
    Prop where
  current : w'.current.locals = w.current.locals ++ o.locals.map (options.localName base)
  target : w'.target.methods.map Method.locals =
    w.target.methods.map Method.locals ++ o.factories.map (·.map (options.localName base))

namespace Workshop

variable {options : Options} {base : String} {o more : Outline} {u v w : Workshop}

theorem Declares.refl (options : Options) (base : String) (w : Workshop) :
    w.Declares options base {} w :=
  ⟨by simp, by simp⟩

/-- The locals of a later outline come behind those of the first. -/
theorem Declares.trans (huv : u.Declares options base o v) (hvw : v.Declares options base more w) :
    u.Declares options base (o.append more) w := by
  constructor
  · simp [Outline.append, hvw.current, huv.current]
  · simp [Outline.append, hvw.target, huv.target]

/-- What is declared for a member, as seen from the value. -/
theorem Declares.under {member : String}
    (h : u.Declares options (options.nestedName base member) o v) :
    u.Declares options base (o.under member) v := by
  have hname (path : List String) : options.localName base (member :: path) =
      options.localName (options.nestedName base member) path := rfl
  constructor
  · simp [Outline.under, h.current, Function.comp_def, hname]
  · simp [Outline.under, h.target, Function.comp_def, hname]

/-- A statement that declares nothing changes nothing. -/
theorem Declares.push (h : u.Declares options base o v) (s : Statement)
    (hs : s.declared? = none) : u.Declares options base o (v.push s) := by
  constructor
  · simpa [Workshop.push, Method.locals_push, hs] using h.current
  · exact h.target

/-- With one more local, the value's own. -/
theorem Declares.close (h : u.Declares options base o v) {s : Statement}
    (hs : s.declared? = some base) : u.Declares options base (o.close true) (v.push s) := by
  have hname : options.localName base [] = base := rfl
  constructor
  · simp [Workshop.push, Method.locals_push, hs, Outline.close, h.current, hname]
  · exact h.target

end Workshop

/-- A successful emission declares the locals of the outline of the value. -/
def Emission.Declaring (emission : Emission) : Prop :=
  ∀ ⦃scope v base w e w'⦄,
    w.generator.registry.Within (fun _ => True) w.generator.options.order →
    emission scope v base w = some (.ok e, w') →
    w'.generator.registry.Within (fun _ => True) w.generator.options.order ∧
      ∃ o, Outlines scope.heap w.generator.options.order w.generator.inProgress.length
          w.generator.registry v o w'.generator.registry ∧
        w.Declares w.generator.options base o w'

/-- What is emitted into a fresh factory has its locals there, apart from those of the method. -/
theorem Emission.Declaring.inMethod {emission : Emission} (h : emission.Declaring) {m : Method}
    (hm : m.body = []) {scope : Scope} {v : Value} {base : String} {w w' : Workshop} {e : Expr}
    (hw : w.generator.registry.Within (fun _ => True) w.generator.options.order)
    (hr : emission.inMethod m scope v base w = some (.ok e, w')) :
    w'.generator.registry.Within (fun _ => True) w.generator.options.order ∧
      ∃ o, Outlines scope.heap w.generator.options.order w.generator.inProgress.length
          w.generator.registry v o w'.generator.registry ∧
        w.Declares w.generator.options base o.apart w' := by
  obtain ⟨⟨r, w₁⟩, hw₁, heq⟩ := Option.map_eq_some_iff.mp hr
  cases r with
  | error x => cases heq
  | ok e' =>
    cases heq
    obtain ⟨hregistry, o, ho, hcurrent, htarget⟩ := h (w := { w with current := m }) hw hw₁
    have hnil : m.locals = [] := by simp [Method.locals, Statement.localsOf, hm]
    refine ⟨hregistry, o, ho, by simp [Outline.apart], ?_⟩
    simp [Outline.apart, htarget, Method.locals_push, hcurrent, hnil, Statement.declared?]

/-- Halfway through a recipe that was begun in workshop `u`. -/
structure Workshop.Midway (heap : Heap) (options : Options) (base : String) (reading : Nat)
    (u : Workshop) (h : Hand) (w : Workshop) : Prop where
  sameOptions : w.generator.options = options
  progress : w.generator.inProgress.length = reading
  registry : w.generator.registry.Within (fun _ => True) options.order
  outline : ∃ o, OutlinesAll heap options.order reading u.generator.registry h.parts o
      w.generator.registry ∧
    u.Declares options base (o.close h.declared) w

/-- One more statement, which declares the local of the value if anything. -/
theorem Workshop.Midway.push {heap : Heap} {options : Options} {base : String} {reading : Nat}
    {u w : Workshop} {h : Hand} (hw : Midway heap options base reading u h w) {s : Statement}
    (hs : h.Allows base s) : Midway heap options base reading u (h.push s) (w.push s) := by
  obtain ⟨o, ho, hdeclares⟩ := hw.outline
  refine ⟨hw.sameOptions, hw.progress, hw.registry, o, ho, ?_⟩
  cases s with
  | declare name type value =>
    obtain ⟨rfl, hd, -⟩ := hs
    rw [hd] at hdeclares
    have hpush : (h.push (.declare name type value)).declared = true := by
      simp [Hand.push, Statement.declared?]
    have hopen : o.close false = o := by simp [Outline.close]
    rw [hpush]
    rw [hopen] at hdeclares
    exact hdeclares.close rfl
  | ret value => exact hs.elim
  | _ =>
    have hpush (b : Bool) : (b || false) = b := Bool.or_false b
    simp only [Hand.push, Statement.declared?, Option.isSome_none, hpush]
    exact hdeclares.push _ rfl

/-- One more part has been emitted. -/
theorem Workshop.Midway.add {heap : Heap} {options : Options} {base : String} {reading : Nat}
    {u w w' : Workshop} {h : Hand} (hw : Midway heap options base reading u h w)
    (hd : h.declared = false) (hgrows : w.Grows w')
    (hregistry : w'.generator.registry.Within (fun _ => True) options.order) {p : Part} {o : Outline}
    (ho : Outlines heap options.order reading w.generator.registry p.value o w'.generator.registry)
    (hdeclares : w.Declares options (options.nestedName base p.member)
      (if p.apart then o.apart else o) w') (e : Expr) :
    Midway heap options base reading u (h.add p e) w' := by
  obtain ⟨before, hbefore, hu⟩ := hw.outline
  have hopen (x : Outline) : x.close false = x := by simp [Outline.close]
  rw [hd, hopen] at hu
  have hparts : (h.add p e).parts = h.parts ++ [p] := by simp [Hand.parts, Hand.add]
  refine ⟨hgrows.options.trans hw.sameOptions, by rw [hgrows.inProgress, hw.progress], hregistry,
    before.append (o.ofPart p), ?_, ?_⟩
  · rw [hparts]
    exact hbefore.concat ho
  · have hdeclared : (h.add p e).declared = false := hd
    rw [hdeclared, hopen]
    exact hu.trans hdeclares.under

/-- Every step of an orderly recipe keeps what is known halfway through. -/
theorem Scope.keeps_midway {emission : Emission} (hdeclaring : emission.Declaring)
    (hsteady : emission.Steady) (scope : Scope) (options : Options) (base : String) (reading : Nat)
    (u : Workshop) :
    (scope.job options base reading).Keeps emission scope
      (fun h w => Workshop.Midway scope.heap options base reading u h w) (fun _ => True) where
  answer hw o property := by rw [hw.progress]; rfl
  push hw hs := hw.push hs
  recorded hw _ := ⟨hw.sameOptions, hw.progress, hw.registry, hw.outline⟩
  emitted := by
    intro h w member v e w' hw hd _ hr
    have hgrows := hsteady hr
    obtain ⟨hregistry, o, ho, hdeclares⟩ := hdeclaring (hw.sameOptions ▸ hw.registry) hr
    rw [hw.sameOptions] at hregistry ho hdeclares
    rw [hw.progress] at ho
    exact hw.add hd hgrows hregistry (p := { member, value := v }) ho hdeclares e
  factory := by
    intro h w name v e w' hw hd _ hr _
    have hgrows := (hsteady.inMethod _ hr).1
    obtain ⟨hregistry, o, ho, hdeclares⟩ := hdeclaring.inMethod rfl (hw.sameOptions ▸ hw.registry) hr
    rw [hw.sameOptions] at hregistry ho hdeclares
    rw [hw.progress] at ho
    exact hw.add hd hgrows hregistry (p := .root v) ho hdeclares (.methodGroup name)
  emitFailed _ _ _ _ := trivial
  factoryFailed _ _ _ _ := trivial
  blamed _ := trivial

/-- Running an emitter that is in charge declares the locals that its anatomy calls for. -/
def Emission.DeclaringAs (emission : Emission) (e : Emitter) : Prop :=
  ∀ ⦃scope v base w x w'⦄,
    w.generator.registry.Within (fun _ => True) w.generator.options.order →
    emission scope v base w = some (.ok x, w') →
    w'.generator.registry.Within (fun _ => True) w.generator.options.order ∧
      ∃ o, OutlinesAll scope.heap w.generator.options.order w.generator.inProgress.length
          w.generator.registry
          (e.anatomy (scope.heap.answers w.generator.inProgress.length) v).parts o
          w'.generator.registry ∧
        w.Declares w.generator.options base
          (o.close (e.anatomy (scope.heap.answers w.generator.inProgress.length) v).hasLocal) w'

namespace Generator

theorem length_entered (g : Generator) (v : Value) :
    (g.entered v).inProgress.length = v.progress g.inProgress.length := by
  cases v <;> rfl

/-- Emitting a value declares the locals of its outline when running the emitter in charge declares those of
its anatomy. -/
theorem emitVia_declaring {run : Emitter → Emission}
    (hrun : ∀ e, e.IsOwn → (run e).DeclaringAs e) : (emitVia run).Declaring := by
  intro scope v base w x w' hw hr
  rw [emitVia_eq] at hr
  have hopens := w.generator.opens v
  generalize w.generator.opening v = opening at hopens hr
  cases hopens with
  | settled r haside =>
    cases hr
    exact ⟨hw, {}, .aside (haside x rfl).2, .refl _ _ w⟩
  | @runs e g _ hoptions hprogress hcharge =>
    obtain ⟨⟨r₁, w₁⟩, hw₁, heq⟩ := Option.map_eq_some_iff.mp hr
    cases heq
    have hregistry := hcharge.within hw fun _ _ _ => trivial
    have hlength : g.inProgress.length = v.progress w.generator.inProgress.length := by
      rw [hprogress, length_entered]
    have hstart : (w.withGenerator g).generator.registry.Within (fun _ => True)
        (w.withGenerator g).generator.options.order := by
      rw [Workshop.generator_withGenerator, hoptions]
      exact hregistry
    obtain ⟨hafter, o, ho, hdeclares⟩ := hrun e (hcharge.isOwn hw) hstart hw₁
    simp only [Workshop.generator_withGenerator, hoptions, hlength] at hafter ho hdeclares
    refine ⟨?_, o.close _, .runs hcharge ?_, ?_⟩
    · cases v <;> exact hafter
    · cases v <;> exact ho
    · cases v <;> exact ⟨hdeclares.current, hdeclares.target⟩

/-- By induction on the depth: the parts declare the locals of their outlines, one part after another. -/
theorem runWithin_declaring (depth : Nat) {e : Emitter} (he : e.IsOwn) :
    (runWithin depth e).DeclaringAs e := by
  induction depth generalizing e with
  | zero =>
    intro scope v base w x w' hw hr
    cases hr
  | succ depth ih =>
    intro scope v base w x w' hw hr
    have hkeeps := scope.keeps_midway (emitVia_declaring fun e he => ih he)
      (emitVia_steady (runWithin_steady depth)) w.generator.options base
      w.generator.inProgress.length w
    have horderly := Emitter.orderly (j := scope.job w.generator.options base
      w.generator.inProgress.length) (v := v) he trivial
    have hmidway : Workshop.Midway scope.heap w.generator.options base
        w.generator.inProgress.length w {} w :=
      ⟨rfl, rfl, hw, {}, .nil, .refl _ _ w⟩
    obtain ⟨x', k, -, ⟨-, hanatomy⟩, hk⟩ | ⟨x', hx', -⟩ := horderly.follow hkeeps hmidway hr
    · obtain ⟨o, ho, hdeclares⟩ := hk.outline
      have hparts : k.parts =
          (e.anatomy (scope.heap.answers w.generator.inProgress.length) v).parts :=
        congrArg Anatomy.parts hanatomy
      have hlocal : k.declared =
          (e.anatomy (scope.heap.answers w.generator.inProgress.length) v).hasLocal :=
        congrArg Anatomy.hasLocal hanatomy
      rw [hparts] at ho
      rw [hlocal] at hdeclares
      exact ⟨hk.registry, o, ho, hdeclares⟩
    · cases hx'

theorem emit_declaring : emit.Declaring := by
  intro scope v base w x w' hw hr
  have hrun (e : Emitter) (he : e.IsOwn) := runWithin_declaring (depthBound scope.heap v) he
  exact emitVia_declaring hrun hw hr

end Generator

/-- The paths of each method are joined to distinct names. -/
def Outline.Distinct (o : Outline) (options : Options) (base : String) : Prop :=
  (o.locals.map (options.localName base)).Nodup ∧
    ∀ paths ∈ o.factories, (paths.map (options.localName base)).Nodup

/-- A value that is emitted into an empty method of an empty class has one outline, and no local is declared
twice, in the method or in a factory, exactly when the paths of the outline are joined to distinct names. -/
theorem Generator.nodup_locals_iff {scope : Scope} {v : Value} {base : String} {options : Options}
    {method : Method} {target : Class} {e : Expr} {w : Workshop} (hmethod : method.body = [])
    (htarget : target.methods = [])
    (h : emit scope v base { generator := { options }, current := method, target } =
      some (.ok e, w)) :
    ∃ o, (∃ t, Outlines scope.heap options.order 0 .builtin v o t) ∧
      (∀ o' t, Outlines scope.heap options.order 0 .builtin v o' t → o' = o) ∧
      (w.current.locals.Nodup ∧ (∀ m ∈ w.target.methods, m.locals.Nodup) ↔
        o.Distinct options base) := by
  obtain ⟨-, o, ho, hcurrent, hmethods⟩ :=
    emit_declaring (w := { generator := { options }, current := method, target })
      (Registry.within_builtin _ _) h
  have hlocals : method.locals = [] := by simp [Method.locals, Statement.localsOf, hmethod]
  simp only [hlocals, htarget, List.map_nil, List.nil_append] at hcurrent hmethods
  refine ⟨o, ⟨_, ho⟩, fun o' t ho' => (ho'.unique ho).1, ?_⟩
  unfold Outline.Distinct
  rw [hcurrent]
  -- each factory has the locals of one list of paths
  refine and_congr_right fun _ => ⟨fun hm paths hp => ?_, fun hp m hm => ?_⟩
  · have hmem : paths.map (options.localName base) ∈ w.target.methods.map Method.locals := by
      rw [hmethods]
      exact List.mem_map_of_mem hp
    obtain ⟨m, hmem, heq⟩ := List.mem_map.mp hmem
    exact heq ▸ hm m hmem
  · have hmem : m.locals ∈ o.factories.map (·.map (options.localName base)) := by
      rw [← hmethods]
      exact List.mem_map_of_mem hm
    obtain ⟨paths, hpaths, heq⟩ := List.mem_map.mp hmem
    exact heq ▸ hp paths hpaths

/-- A style that sets two properties of the same simple name, each to a list. -/
def clashingHeap : Heap :=
  let setter (cell : Nat) : Value := .object { cell, type := KnownType.setter.descriptor }
  ⟨#[{ values := [("Setters", .list [setter 1, setter 2])] },
    { values := [("Property", .string "Control.Background"), ("Value", .list [.literal (.int32 1)])] },
    { values := [("Property", .string "Border.Background"), ("Value", .list [.literal (.int32 2)])] }]⟩

def clashingStyle : Value := .object { cell := 0, type := KnownType.style.descriptor }

def emptyWorkshop : Workshop :=
  { current := { name := "InitializeResources" }, target := { name := "Dictionary1" } }

theorem emit_clashingStyle :
    ∃ e w, Generator.emit { heap := clashingHeap } clashingStyle "button" emptyWorkshop =
        some (.ok e, w) ∧
      w.current.locals = ["button_Background", "button_Background", "button"] := by
  have hemit : (Generator.emit { heap := clashingHeap } clashingStyle "button" emptyWorkshop).any
      (fun x => x.1.isOk &&
        x.2.current.locals == ["button_Background", "button_Background", "button"]) = true := by
    decide +kernel
  cases hx : Generator.emit { heap := clashingHeap } clashingStyle "button" emptyWorkshop with
  | none => simp [hx] at hemit
  | some x =>
    obtain ⟨r, w⟩ := x
    rw [hx, Option.any_some, Bool.and_eq_true, beq_iff_eq] at hemit
    cases r with
    | ok e => exact ⟨e, w, rfl, hemit.2⟩
    | error e => exact absurd hemit.1 (by simp [Except.isOk, Except.toBool])

/-- The local of the first list is declared again for the second. -/
theorem Generator.locals_declared_twice :
    ¬ ∀ (scope : Scope) (v : Value) (base : String) (method : Method) (target : Class) (e : Expr)
      (w : Workshop), method.body = [] → target.methods = [] → Text.identifier base = base →
      emit scope v base { current := method, target } = some (.ok e, w) →
      w.current.locals.Nodup ∧ ∀ m ∈ w.target.methods, m.locals.Nodup := by
  intro hall
  obtain ⟨e, w, hr, hlocals⟩ := emit_clashingStyle
  have hnodup := (hall _ _ _ _ _ e w rfl rfl (by decide +kernel) hr).1
  rw [hlocals] at hnodup
  simp at hnodup

theorem Generator.nodup_locals_iff_clashingStyle :
    ∃ e w, emit { heap := clashingHeap } clashingStyle "button" emptyWorkshop = some (.ok e, w) ∧
      ∃ o, (∃ t, Outlines clashingHeap .name 0 .builtin clashingStyle o t) ∧
        (∀ o' t, Outlines clashingHeap .name 0 .builtin clashingStyle o' t → o' = o) ∧
        (w.current.locals.Nodup ∧ (∀ m ∈ w.target.methods, m.locals.Nodup) ↔
          o.Distinct {} "button") := by
  obtain ⟨e, w, hr, -⟩ := emit_clashingStyle
  exact ⟨e, w, hr, nodup_locals_iff rfl rfl hr⟩

end ResourceCode
