import ResourceCode.Proofs.Emission.Factories
import ResourceCode.Proofs.Emission.Joining

/-!
Where the names in generated code come from. Every local that is declared, and every variable that is mentioned outside
a recorded expression, is called by a name that has been made from the base name by going on to members. Each such step
ends in making an identifier, so the names are identifiers whatever members and separators are made of, provided that
the base name is one.
-/

namespace ResourceCode

open Text (IsIdentifier)

/-- Every variable of an expression has a known name, except in what has been recorded. -/
inductive Expr.Mentions (known : String → Prop) (recorded : Expr → Prop) : Expr → Prop
  | recorded {e} : recorded e → Mentions known recorded e
  | var {name} : known name → Mentions known recorded (.var name)
  | literal (l) : Mentions known recorded (.literal l)
  | this : Mentions known recorded .this
  | type (t) : Mentions known recorded (.type t)
  | typeOf (t) : Mentions known recorded (.typeOf t)
  | methodGroup (name) : Mentions known recorded (.methodGroup name)
  | field {target} (name) : Mentions known recorded target →
      Mentions known recorded (.field target name)
  | new (t) {args} : (∀ e ∈ args, Mentions known recorded e) → Mentions known recorded (.new t args)
  | call {target} (method) {args} : Mentions known recorded target →
      (∀ e ∈ args, Mentions known recorded e) → Mentions known recorded (.call target method args)
  | invoke (method) {args} : (∀ e ∈ args, Mentions known recorded e) →
      Mentions known recorded (.invoke method args)

/-- A statement with known names: that of the local it declares, and those of its variables. -/
structure Statement.Names (known : String → Prop) (recorded : Expr → Prop) (s : Statement) : Prop where
  declared : ∀ name ∈ s.declared?, known name
  mentioned : ∀ e ∈ s.expressions, e.Mentions known recorded

variable {known more : String → Prop} {recorded recalled : Expr → Prop} {options : Options}
  {base inner : String}

/-- More names may be known and more expressions recorded. -/
theorem Expr.Mentions.imp {e : Expr} (h : e.Mentions known recorded)
    (hmore : ∀ name, known name → more name) (hrecalled : ∀ e, recorded e → recalled e) :
    e.Mentions more recalled := by
  induction h with
  | recorded hr => exact .recorded (hrecalled _ hr)
  | var hk => exact .var (hmore _ hk)
  | literal l => exact .literal l
  | this => exact .this
  | type t => exact .type t
  | typeOf t => exact .typeOf t
  | methodGroup name => exact .methodGroup name
  | field name _ ih => exact .field name ih
  | new t _ ih => exact .new t ih
  | call method _ _ iht iha => exact .call method iht iha
  | invoke method _ ih => exact .invoke method ih

theorem Expr.Mentions.mono {e : Expr} (h : e.Mentions known recorded)
    (hmore : ∀ name, known name → more name) : e.Mentions more recorded :=
  h.imp hmore fun _ hr => hr

theorem Statement.Names.imp {s : Statement} (h : s.Names known recorded)
    (hmore : ∀ name, known name → more name) (hrecalled : ∀ e, recorded e → recalled e) :
    s.Names more recalled :=
  ⟨fun name hname => hmore name (h.declared name hname),
    fun e he => (h.mentioned e he).imp hmore hrecalled⟩

mutual

/-- With nothing left out it is the variables that have to be known. -/
theorem Expr.mentions_of_vars (e : Expr) (h : ∀ x ∈ e.vars, known x) : e.Mentions known recorded := by
  cases e with
  | var name => exact .var (h name List.mem_cons_self)
  | literal l => exact .literal l
  | this => exact .this
  | type t => exact .type t
  | typeOf t => exact .typeOf t
  | methodGroup name => exact .methodGroup name
  | field target name => exact .field name (target.mentions_of_vars h)
  | new t args => exact .new t (mentions_of_varsAll args h)
  | call target method args =>
    exact .call method (target.mentions_of_vars fun x hx => h x (List.mem_append_left _ hx))
      (mentions_of_varsAll args fun x hx => h x (List.mem_append_right _ hx))
  | invoke method args => exact .invoke method (mentions_of_varsAll args h)

theorem Expr.mentions_of_varsAll (es : List Expr) (h : ∀ x ∈ varsAll es, known x) :
    ∀ e ∈ es, e.Mentions known recorded := by
  cases es with
  | nil => exact nofun
  | cons e rest =>
    exact List.forall_mem_cons.mpr
      ⟨e.mentions_of_vars fun x hx => h x (List.mem_append_left _ hx),
        mentions_of_varsAll rest fun x hx => h x (List.mem_append_right _ hx)⟩

end

/-- What is not method bound has no variables at all. -/
theorem Expr.mentions_of_isMethodBound {e : Expr} (h : e.isMethodBound = false) :
    e.Mentions known recorded := by
  rw [isMethodBound_eq, Bool.or_eq_false_iff, Bool.not_eq_false', List.isEmpty_iff] at h
  exact e.mentions_of_vars (h.1 ▸ nofun)

/-- What an emitter has been given mentions known names. -/
structure Hand.Mentions (known : String → Prop) (recorded : Expr → Prop) (h : Hand) : Prop where
  given : ∀ x ∈ h.given, x.2.Mentions known recorded
  recorded : ∀ e ∈ h.recorded, recorded e

namespace Hand

variable {h : Hand} {e : Expr}

/-- What has been given stays known when it grows by an expression with known names. -/
theorem Mentions.add (hh : h.Mentions known recorded) (he : e.Mentions known recorded) (p : Part) :
    (h.add p e).Mentions known recorded := by
  refine ⟨fun x hx => ?_, hh.recorded⟩
  rcases List.mem_append.mp hx with hx | hx
  · exact hh.given x hx
  · exact List.mem_singleton.mp hx ▸ he

theorem Mentions.addRecorded (hh : h.Mentions known recorded) (he : recorded e) :
    (h.addRecorded e).Mentions known recorded := by
  refine ⟨hh.given, fun x hx => ?_⟩
  rcases List.mem_append.mp hx with hx | hx
  · exact hh.recorded x hx
  · exact List.mem_singleton.mp hx ▸ he

/-- The only variable that an emitter brings in itself is its local. -/
theorem Mentions.of_makes (hh : h.Mentions known recorded) (hbase : known base)
    (he : h.Makes base e) : e.Mentions known recorded := by
  induction he with
  | given hm => exact hh.given _ hm
  | recorded hm => exact .recorded (hh.recorded _ hm)
  | var hd => exact .var hbase
  | literal l => exact .literal l
  | type t => exact .type t
  | typeOf t => exact .typeOf t
  | field name _ ih => exact .field name ih
  | new t _ ih => exact .new t ih
  | call method _ _ iht iha => exact .call method iht iha

/-- Every statement that may be written has known names, as long as the base name is known. -/
theorem Mentions.names (hh : h.Mentions known recorded) (hbase : known base) {s : Statement}
    (hs : h.Allows base s) : s.Names known recorded := by
  refine ⟨fun name hname => ?_, fun e he => hh.of_makes hbase (hs.makes e he)⟩
  cases s with
  | declare declared type value =>
    obtain ⟨rfl, -⟩ := hs
    exact Option.some.inj hname ▸ hbase
  | _ => cases hname

end Hand

/-- From one workshop to a later one, with known names in all that has been written. -/
structure Workshop.Names (known : String → Prop) (recorded : Expr → Prop) (u w : Workshop) : Prop where
  current : ∃ statements, w.current.body = u.current.body ++ statements ∧
    ∀ s ∈ statements, s.Names known recorded
  target : ∃ factories, w.target.methods = u.target.methods ++ factories ∧
    ∀ m ∈ factories, ∀ s ∈ m.body, s.Names known recorded

namespace Workshop

variable {u v w : Workshop}

theorem Names.refl (known : String → Prop) (recorded : Expr → Prop) (w : Workshop) :
    w.Names known recorded w :=
  ⟨⟨[], by simp⟩, ⟨[], by simp⟩⟩

theorem Names.imp (h : u.Names known recorded w) (hmore : ∀ name, known name → more name)
    (hrecalled : ∀ e, recorded e → recalled e) : u.Names more recalled w := by
  obtain ⟨⟨statements, hcurrent, hs⟩, factories, htarget, hf⟩ := h
  exact ⟨⟨statements, hcurrent, fun s hmem => (hs s hmem).imp hmore hrecalled⟩,
    factories, htarget, fun m hm s hmem => (hf m hm s hmem).imp hmore hrecalled⟩

theorem Names.mono (h : u.Names known recorded w) (hmore : ∀ name, known name → more name) :
    u.Names more recorded w :=
  h.imp hmore fun _ hr => hr

theorem Names.trans (huv : u.Names known recorded v) (hvw : v.Names known recorded w) :
    u.Names known recorded w := by
  obtain ⟨⟨statements, hcurrent, hs⟩, factories, htarget, hf⟩ := huv
  obtain ⟨⟨statements', hcurrent', hs'⟩, factories', htarget', hf'⟩ := hvw
  refine ⟨⟨statements ++ statements', by rw [hcurrent', hcurrent, List.append_assoc], fun s hmem => ?_⟩,
    factories ++ factories', by rw [htarget', htarget, List.append_assoc], fun m hmem => ?_⟩
  · exact (List.mem_append.mp hmem).elim (hs s) (hs' s)
  · exact (List.mem_append.mp hmem).elim (hf m) (hf' m)

theorem Names.push (h : u.Names known recorded w) {s : Statement} (hs : s.Names known recorded) :
    u.Names known recorded (w.push s) := by
  obtain ⟨⟨statements, hcurrent, hall⟩, htarget⟩ := h
  refine ⟨⟨statements ++ [s], by simp [Workshop.push, hcurrent], fun t ht => ?_⟩, htarget⟩
  rcases List.mem_append.mp ht with ht | ht
  · exact hall t ht
  · exact List.mem_singleton.mp ht ▸ hs

end Workshop

/-- An emission in which every name is made from the base name. -/
def Emission.NamesBelow (emission : Emission) : Prop :=
  ∀ ⦃scope v base w r w'⦄, w.generator.IsOwn → emission scope v base w = some (r, w') →
    w.Names (w.generator.options.Below base) scope.Records w' ∧
      ∀ e, r = .ok e → e.Mentions (w.generator.options.Below base) scope.Records

/-- The names in a factory are made from the base name of its content. -/
theorem Emission.NamesBelow.inMethod {emission : Emission} (h : emission.NamesBelow) {m : Method}
    (hm : m.body = []) {scope : Scope} {v : Value} {w w' : Workshop} {r : Except EmitError Expr}
    (hw : w.generator.IsOwn) (hr : emission.inMethod m scope v base w = some (r, w')) :
    w.Names (w.generator.options.Below base) scope.Records w' := by
  obtain ⟨⟨r₁, w₁⟩, hw₁, heq⟩ := Option.map_eq_some_iff.mp hr
  obtain ⟨⟨⟨statements, hcurrent, hs⟩, factories, htarget, hf⟩, hresult⟩ :=
    h (w := { w with current := m }) hw hw₁
  cases r₁ with
  | error e =>
    cases heq
    exact ⟨⟨[], by simp⟩, factories, htarget, hf⟩
  | ok e =>
    cases heq
    have hbody : w₁.current.body = statements := by simpa [hm] using hcurrent
    refine ⟨⟨[], by simp⟩, factories ++ [w₁.current.push (.ret (some e))],
      by rw [Class.methods_add, htarget, List.append_assoc], fun f hmem s hsf => ?_⟩
    rcases List.mem_append.mp hmem with hmem | hmem
    · exact hf f hmem s hsf
    · rw [List.mem_singleton.mp hmem, Method.body_push, hbody] at hsf
      rcases List.mem_append.mp hsf with hsf | hsf
      · exact hs s hsf
      · rw [List.mem_singleton.mp hsf]
        exact ⟨nofun, fun x hx => List.mem_singleton.mp hx ▸ hresult e rfl⟩

/-- Halfway through a recipe that was begun in workshop `u`. -/
structure Workshop.Writing (recorded : Expr → Prop) (options : Options) (base : String) (reading : Nat)
    (u : Workshop) (h : Hand) (w : Workshop) : Prop where
  code : u.Names (options.Below base) recorded w
  hand : h.Mentions (options.Below base) recorded
  isOwn : w.generator.IsOwn
  options : w.generator.options = options
  reading : w.generator.inProgress.length = reading

/-- One more part has been emitted, under a name below. -/
theorem Workshop.Writing.add {reading : Nat} {u w w' : Workshop} {h : Hand}
    (hw : u.Writing recorded options base reading h w) (hgrows : w.Grows w')
    (hown : w'.generator.IsOwn) (hnames : w.Names (options.Below inner) recorded w')
    (hbelow : options.Below base inner) {e : Expr} (he : e.Mentions (options.Below inner) recorded)
    (p : Part) : u.Writing recorded options base reading (h.add p e) w' where
  code := hw.code.trans (hnames.mono fun _ => hbelow.trans)
  hand := hw.hand.add (he.mono fun _ => hbelow.trans) p
  isOwn := hown
  options := hgrows.options.trans hw.options
  reading := by rw [hgrows.inProgress, hw.reading]

/-- Every step of an orderly recipe keeps what is known halfway through. -/
theorem Scope.keeps_writing {emission : Emission} (hbelow : emission.NamesBelow)
    (hsteady : emission.Steady) (hmaintains : emission.Maintains Generator.IsOwn) (scope : Scope)
    (options : Options) (base : String) (reading : Nat) (u : Workshop) :
    (scope.job options base reading).Keeps emission scope
      (fun h w => u.Writing scope.Records options base reading h w)
      (u.Names (options.Below base) scope.Records) where
  answer hw o property := by rw [hw.reading]; rfl
  push hw hs :=
    ⟨hw.code.push (hw.hand.names .refl hs), ⟨hw.hand.given, hw.hand.recorded⟩, hw.isOwn, hw.options,
      hw.reading⟩
  recorded hw he :=
    ⟨hw.code, hw.hand.addRecorded ⟨_, (Option.filter_eq_some_iff.mp he).1⟩, hw.isOwn, hw.options,
      hw.reading⟩
  emitted hw _ _ hr := by
    obtain ⟨hnames, hresult⟩ := hbelow hw.isOwn hr
    rw [hw.options] at hnames hresult
    exact hw.add (hsteady hr) (hmaintains hw.isOwn hr) hnames (options.below_member base _)
      (hresult _ rfl) _
  factory hw _ _ hr _ :=
    hw.add (hsteady.inMethod _ hr).1 (hmaintains.inMethod _ hw.isOwn hr)
      (hw.options ▸ hbelow.inMethod rfl hw.isOwn hr) (options.below_member base _) (.methodGroup _) _
  emitFailed hw _ _ hr := by
    obtain ⟨hnames, -⟩ := hbelow hw.isOwn hr
    rw [hw.options] at hnames
    exact hw.code.trans (hnames.mono fun _ => (options.below_member base _).trans)
  factoryFailed hw _ _ hr := by
    have hnames := hbelow.inMethod rfl hw.isOwn hr
    rw [hw.options] at hnames
    exact hw.code.trans (hnames.mono fun _ => (options.below_member base _).trans)
  blamed hw := hw.code

namespace Generator

/-- Emitting a value makes all names from the base name when running the emitters of the generator does. -/
theorem emitVia_namesBelow {run : Emitter → Emission} (hrun : ∀ e, e.IsOwn → (run e).NamesBelow) :
    (emitVia run).NamesBelow := by
  intro scope v base w r w' hw hr
  rw [emitVia_eq] at hr
  have hopens := w.generator.opens v
  cases hopening : w.generator.opening v with
  | settled r' =>
    rw [hopening] at hr hopens
    cases hr
    cases hopens with
    | settled _ hstandalone =>
      exact ⟨.refl .., fun e he => Expr.mentions_of_isMethodBound (hstandalone e he).1⟩
  | runs e g =>
    rw [hopening] at hr hopens
    obtain ⟨⟨r₁, w₁⟩, hw₁, heq⟩ := Option.map_eq_some_iff.mp hr
    cases heq
    cases hopens with
    | runs _ hoptions _ hcharge =>
      have hg : g.IsOwn := lasting_isOwn.opening hw hopening
      obtain ⟨⟨hcurrent, htarget⟩, hresult⟩ :=
        hrun e (hcharge.isOwn hw) (w := w.withGenerator g) hg hw₁
      rw [Workshop.generator_withGenerator, hoptions] at hcurrent htarget hresult
      cases v <;> exact ⟨⟨hcurrent, htarget⟩, hresult⟩

/-- By induction on the depth, along the anatomy of the emitter. -/
theorem runWithin_namesBelow (depth : Nat) {e : Emitter} (he : e.IsOwn) :
    (runWithin depth e).NamesBelow := by
  induction depth generalizing e with
  | zero =>
    intro scope v base w r w' hw hr
    cases hr
  | succ depth ih =>
    intro scope v base w r w' hw hr
    have hkeeps := scope.keeps_writing (emitVia_namesBelow fun e he => ih he)
      (emitWithin_steady depth) (emitWithin_maintains lasting_isOwn depth) w.generator.options base
      w.generator.inProgress.length w
    have horderly := Emitter.orderly (j := scope.job w.generator.options base
      w.generator.inProgress.length) (v := v) he trivial
    have hwriting : w.Writing scope.Records w.generator.options base
        w.generator.inProgress.length {} w :=
      ⟨.refl .., ⟨nofun, nofun⟩, hw, rfl, rfl⟩
    obtain ⟨x, k, rfl, hfinishes, hk⟩ | ⟨x, rfl, hnames⟩ := horderly.follow hkeeps hwriting hr
    · refine ⟨hk.code, fun e' he' => ?_⟩
      cases he'
      exact hk.hand.of_makes .refl hfinishes.1
    · exact ⟨hnames, nofun⟩

theorem emitWithin_namesBelow (depth : Nat) : (emitWithin depth).NamesBelow :=
  emitVia_namesBelow fun _ he => runWithin_namesBelow depth he

end Generator

/-- The names below an identifier are identifiers. -/
theorem Options.Below.isIdentifier {name : String} (h : options.Below base name)
    (hbase : IsIdentifier base) : IsIdentifier name := by
  cases h with
  | refl => exact hbase
  | member m _ => exact Text.isIdentifier_identifier _

/-- A number at the end leaves an identifier one. -/
theorem Text.IsNumbered.isIdentifier {stem name : String} (h : IsNumbered stem name)
    (hstem : IsIdentifier stem) : IsIdentifier name := by
  obtain rfl | ⟨n, rfl⟩ := h
  · exact hstem
  · exact hstem.numbered n

/-- So does the ending of the name of a factory. -/
theorem Text.IsIdentifier.factory {stem : String} (hstem : IsIdentifier stem) :
    IsIdentifier (stem ++ "_Factory") := by
  have hplain : ("_Factory" : String).toList.all (fun c => c.isAlphanum || c == '_') = true := by
    decide
  refine hstem.append fun c hc => ?_
  obtain hc | hc := Bool.or_eq_true_iff.mp (List.all_eq_true.mp hplain c hc)
  · exact Text.isWordChar_of_isAlphanum hc
  · obtain rfl := eq_of_beq hc
    exact Text.isWordChar_underscore

/-- Below a base name that is an identifier, every local that is declared, every variable that is mentioned, and every
name and parameter of a factory is an identifier, whether the emission succeeds or fails. Only what is recorded under a
key that has been looked up may mention others. -/
theorem Generator.names_hygienic {depth : Nat} {scope : Scope} {v : Value} {w w' : Workshop}
    {r : Except EmitError Expr} (hw : w.generator.IsOwn) (hbase : IsIdentifier base)
    (h : emitWithin depth scope v base w = some (r, w')) :
    (∃ statements, w'.current.body = w.current.body ++ statements ∧
        ∀ s ∈ statements, s.Names IsIdentifier (Request.Recalls ⟨depth, scope, v, base, w⟩)) ∧
      (∃ factories, w'.target.methods = w.target.methods ++ factories ∧
        ∀ m ∈ factories, IsIdentifier m.name ∧ (∀ p ∈ m.parameters, IsIdentifier p.name) ∧
          ∀ s ∈ m.body, s.Names IsIdentifier (Request.Recalls ⟨depth, scope, v, base, w⟩)) ∧
      ∀ e, r = .ok e → e.Mentions IsIdentifier (Request.Recalls ⟨depth, scope, v, base, w⟩) := by
  have hbelow (name : String) (hname : w.generator.options.Below base name) : IsIdentifier name :=
    hname.isIdentifier hbase
  -- nothing changes when only what is looked up has been recorded in the first place
  obtain ⟨resources, hsame, hrecalls⟩ := Request.exists_resources ⟨depth, scope, v, base, w⟩
  have h' : emitWithin depth (scope.withResources resources) v base w = some (r, w') := hsame.trans h
  obtain ⟨hnames, hresult⟩ := emitWithin_namesBelow depth hw h'
  obtain ⟨hcurrent, factories, htarget, hf⟩ := hnames.imp hbelow hrecalls
  refine ⟨hcurrent, ⟨factories, htarget, fun m hm => ⟨?_, ?_, hf m hm⟩⟩,
    fun e he => (hresult e he).imp hbelow hrecalls⟩
  all_goals
    obtain ⟨-, joined, hjoined, hjoins⟩ := emitWithin_joins depth hw h
    obtain rfl := List.append_cancel_left (htarget.symm.trans hjoined)
  · obtain ⟨stem, hstem, hname⟩ := (hjoins m hm).named
    exact hname.isIdentifier (hbelow stem hstem).factory
  · rw [(hjoins m hm).isFactory.parameters]
    simp only [List.forall_mem_singleton]
    decide +kernel

/-- A style that sets one property to a list with a resource in it and another one to a template of a list. -/
def hygienicHeap : Heap :=
  ⟨#[{ values := [("Setters", .list [.object { cell := 1, type := KnownType.setter.descriptor },
        .object { cell := 2, type := KnownType.setter.descriptor }])] },
    { values := [("Property", .string "Grid.2nd row"),
        ("Value", .list [.object { cell := 3, type := KnownType.resourceReference.descriptor }])] },
    { values := [("Property", .string "Template"),
        ("Value", .object { cell := 4, type := KnownType.dataTemplate.descriptor })] },
    { values := [("ResourceKey", .string "odd")] },
    { values := [("VisualTree", .list [])] }]⟩

/-- The resource has been recorded under a name that is no identifier. -/
def hygienicScope : Scope where
  heap := hygienicHeap
  resources := some ⟨[("odd", .var "9 lives")]⟩

def hygienicStyle : Value := .object { cell := 0, type := KnownType.style.descriptor }

def hygienicWorkshop : Workshop where
  generator := { options := { separator := "->" } }
  current := { name := "InitializeResources" }
  target := { name := "Dictionary1" }

def hygienicRequest : Request := ⟨4, hygienicScope, hygienicStyle, "item", hygienicWorkshop⟩

theorem Generator.names_hygienic_style :
    ∃ e w, emitWithin 4 hygienicScope hygienicStyle "item" hygienicWorkshop = some (.ok e, w) ∧
      w.current.locals = ["item___2nd_row", "item"] ∧
      w.target.names = ["item__Template_Factory"] ∧ IsIdentifier "item" ∧
      (∃ statements, w.current.body = [] ++ statements ∧
        ∀ s ∈ statements, s.Names IsIdentifier hygienicRequest.Recalls) ∧
      (∃ factories, w.target.methods = [] ++ factories ∧
        ∀ m ∈ factories, IsIdentifier m.name ∧ (∀ p ∈ m.parameters, IsIdentifier p.name) ∧
          ∀ s ∈ m.body, s.Names IsIdentifier hygienicRequest.Recalls) ∧
      e.Mentions IsIdentifier hygienicRequest.Recalls := by
  have hsome : (emitWithin 4 hygienicScope hygienicStyle "item" hygienicWorkshop).any
      (fun x => x.1.isOk && x.2.current.locals == ["item___2nd_row", "item"] &&
        x.2.target.names == ["item__Template_Factory"]) = true := by
    decide +kernel
  obtain ⟨⟨r, w⟩, hw, hresult⟩ := (Option.any_eq_true _ _).mp hsome
  simp only [Bool.and_eq_true, beq_iff_eq] at hresult
  obtain ⟨⟨hok, hlocals⟩, hnames⟩ := hresult
  cases r with
  | error x => cases hok
  | ok e =>
    have hbase : IsIdentifier "item" := by decide +kernel
    have hown : hygienicWorkshop.generator.IsOwn := Registry.within_builtin _ _
    obtain ⟨hcurrent, htarget, hexpr⟩ := names_hygienic hown hbase hw
    exact ⟨e, w, hw, hlocals, hnames, hbase, hcurrent, htarget, hexpr e rfl⟩

end ResourceCode
