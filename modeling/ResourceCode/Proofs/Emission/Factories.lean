import ResourceCode.Proofs.Code.FreeName
import ResourceCode.Proofs.Emission.Calls
import ResourceCode.Proofs.Emission.Scoping

/-!
Factories have distinct names, and every reference to one finds it. While a factory is built it is not in the
class yet, and the name of another one is compared with those in the class and with the innermost factory that
is being built, not with the others around it. That is enough: what is built inside a factory is named after a
longer base name, and a number behind a name does not make up for that, whatever the separator is.
-/

namespace ResourceCode

/-- Every method group in an expression has a known name, except in what has been recorded. -/
inductive Expr.Resolves (known : String → Prop) (recorded : Expr → Prop) : Expr → Prop
  | recorded {e} : recorded e → Resolves known recorded e
  | methodGroup {name} : known name → Resolves known recorded (.methodGroup name)
  | literal (l) : Resolves known recorded (.literal l)
  | var (name) : Resolves known recorded (.var name)
  | this : Resolves known recorded .this
  | type (t) : Resolves known recorded (.type t)
  | typeOf (t) : Resolves known recorded (.typeOf t)
  | field {target} (name) : Resolves known recorded target →
      Resolves known recorded (.field target name)
  | new (t) {args} : (∀ e ∈ args, Resolves known recorded e) → Resolves known recorded (.new t args)
  | call {target} (method) {args} : Resolves known recorded target →
      (∀ e ∈ args, Resolves known recorded e) → Resolves known recorded (.call target method args)
  | invoke (method) {args} : (∀ e ∈ args, Resolves known recorded e) →
      Resolves known recorded (.invoke method args)

def Statement.Resolves (known : String → Prop) (recorded : Expr → Prop) (s : Statement) : Prop :=
  ∀ e ∈ s.expressions, e.Resolves known recorded

variable {known more : String → Prop} {recorded recalled : Expr → Prop}

/-- More names may be known and more expressions recorded. -/
theorem Expr.Resolves.imp {e : Expr} (h : e.Resolves known recorded)
    (hmore : ∀ name, known name → more name) (hrecalled : ∀ e, recorded e → recalled e) :
    e.Resolves more recalled := by
  induction h with
  | recorded hr => exact .recorded (hrecalled _ hr)
  | methodGroup hk => exact .methodGroup (hmore _ hk)
  | literal l => exact .literal l
  | var name => exact .var name
  | this => exact .this
  | type t => exact .type t
  | typeOf t => exact .typeOf t
  | field name _ ih => exact .field name ih
  | new t _ ih => exact .new t ih
  | call method _ _ iht iha => exact .call method iht iha
  | invoke method _ ih => exact .invoke method ih

theorem Expr.Resolves.mono {e : Expr} (h : e.Resolves known recorded)
    (hmore : ∀ name, known name → more name) : e.Resolves more recorded :=
  h.imp hmore fun _ hr => hr

theorem Statement.Resolves.imp {s : Statement} (h : s.Resolves known recorded)
    (hmore : ∀ name, known name → more name) (hrecalled : ∀ e, recorded e → recalled e) :
    s.Resolves more recalled :=
  fun e he => (h e he).imp hmore hrecalled

theorem Statement.Resolves.mono {s : Statement} (h : s.Resolves known recorded)
    (hmore : ∀ name, known name → more name) : s.Resolves more recorded :=
  h.imp hmore fun _ hr => hr

/-- What an emitter has been given refers to known methods. -/
structure Hand.Resolves (known : String → Prop) (recorded : Expr → Prop) (h : Hand) : Prop where
  given : ∀ x ∈ h.given, x.2.Resolves known recorded
  recorded : ∀ e ∈ h.recorded, recorded e

namespace Hand

variable {h : Hand} {base : String} {e : Expr}

theorem Resolves.mono (hh : h.Resolves known recorded) (hmore : ∀ name, known name → more name) :
    h.Resolves more recorded :=
  ⟨fun x hx => (hh.given x hx).mono hmore, hh.recorded⟩

/-- What has been given stays known when it grows by an expression that refers to known methods. -/
theorem Resolves.add (hh : h.Resolves known recorded) (he : e.Resolves known recorded) (p : Part) :
    (h.add p e).Resolves known recorded := by
  refine ⟨fun x hx => ?_, hh.recorded⟩
  rcases List.mem_append.mp hx with hx | hx
  · exact hh.given x hx
  · exact List.mem_singleton.mp hx ▸ he

theorem Resolves.addRecorded (hh : h.Resolves known recorded) (he : recorded e) :
    (h.addRecorded e).Resolves known recorded := by
  refine ⟨hh.given, fun x hx => ?_⟩
  rcases List.mem_append.mp hx with hx | hx
  · exact hh.recorded x hx
  · exact List.mem_singleton.mp hx ▸ he

/-- Emitters make no references of their own. -/
theorem Resolves.of_makes (hh : h.Resolves known recorded) (he : h.Makes base e) :
    e.Resolves known recorded := by
  induction he with
  | given hm => exact hh.given _ hm
  | recorded hm => exact .recorded (hh.recorded _ hm)
  | var hd => exact .var base
  | literal l => exact .literal l
  | type t => exact .type t
  | typeOf t => exact .typeOf t
  | field name _ ih => exact .field name ih
  | new t _ ih => exact .new t ih
  | call method _ _ iht iha => exact .call method iht iha

/-- So no statement that may be written refers to a method that is unknown. -/
theorem Resolves.of_allows (hh : h.Resolves known recorded) {s : Statement}
    (hs : h.Allows base s) : s.Resolves known recorded :=
  fun e he => hh.of_makes (hs.makes e he)

end Hand

namespace Text

theorem stemLength_factory (base : String) :
    stemLength (base ++ "_Factory") = base.toList.length + 8 := by
  have hsuffix : ("_Factory" : String).toList = ['_', 'F', 'a', 'c', 't', 'o', 'r', 'y'] := rfl
  have hy : ('y' : Char).isDigit = false := rfl
  simp [stemLength, hsuffix, hy]

end Text

namespace Options

/-- The name for a member is at least as long as the base name and the member together. -/
theorem length_nestedName (o : Options) (base member : String) :
    base.toList.length + member.toList.length ≤ (o.nestedName base member).toList.length := by
  have h := Text.length_le_identifierChars (base ++ o.separator ++ member).toList
  rw [nestedName, Text.toList_identifier]
  refine Nat.le_trans ?_ h
  simp only [String.toList_append, List.length_append]
  omega

theorem length_le_nestedName (o : Options) (base member : String) :
    base.toList.length ≤ (o.nestedName base member).toList.length :=
  Nat.le_trans (Nat.le_add_right _ _) (o.length_nestedName base member)

/-- Inside a template the base name grows. -/
theorem length_lt_root (o : Options) (base : String) :
    base.toList.length < (o.nestedName base "Root").toList.length := by
  have h := o.length_nestedName base "Root"
  have hroot : ("Root" : String).toList.length = 4 := rfl
  omega

end Options

/-- From one workshop to a later one, when what is emitted is called by the base name. The names of methods are
distinct, those of new factories are at least as long as the base name makes them, and what has been written
refers to methods of the class. -/
structure Workshop.Furnished (recorded : Expr → Prop) (base : String) (u w : Workshop) : Prop where
  distinct : w.target.names.Nodup
  current : ∃ statements, w.current.body = u.current.body ++ statements ∧
    ∀ s ∈ statements, s.Resolves (· ∈ w.target.names) recorded
  target : ∃ factories, w.target.methods = u.target.methods ++ factories ∧
    ∀ m ∈ factories, Text.stemLength (base ++ "_Factory") ≤ Text.stemLength m.name ∧
      ∀ s ∈ m.body, s.Resolves (· ∈ w.target.names) recorded
  registry : w.generator.registry.Within (fun _ => True) w.generator.options.order

namespace Workshop

variable {base inner : String} {u v w : Workshop}

theorem Furnished.refl (recorded : Expr → Prop) (base : String) (hn : w.target.names.Nodup)
    (hr : w.generator.registry.Within (fun _ => True) w.generator.options.order) :
    w.Furnished recorded base w :=
  ⟨hn, ⟨[], by simp⟩, ⟨[], by simp⟩, hr⟩

/-- No method of the class is lost. -/
theorem Furnished.names_subset (h : u.Furnished recorded base w) {name : String}
    (hname : name ∈ u.target.names) : name ∈ w.target.names := by
  obtain ⟨factories, heq, -⟩ := h.target
  simp only [Class.names, heq, List.map_append, List.mem_append]
  exact .inl hname

/-- Going on with what is called by a longer name. -/
theorem Furnished.trans (huv : u.Furnished recorded base v) (hvw : v.Furnished recorded inner w)
    (hlength : base.toList.length ≤ inner.toList.length) : u.Furnished recorded base w := by
  have hsubset (name : String) (hname : name ∈ v.target.names) : name ∈ w.target.names :=
    hvw.names_subset hname
  obtain ⟨statements, hcurrent, hs⟩ := huv.current
  obtain ⟨statements', hcurrent', hs'⟩ := hvw.current
  obtain ⟨factories, htarget, hf⟩ := huv.target
  obtain ⟨factories', htarget', hf'⟩ := hvw.target
  refine ⟨hvw.distinct, ⟨statements ++ statements', by rw [hcurrent', hcurrent, List.append_assoc], ?_⟩,
    ⟨factories ++ factories', by rw [htarget', htarget, List.append_assoc], ?_⟩, hvw.registry⟩
  · intro s hmem
    rcases List.mem_append.mp hmem with hmem | hmem
    · exact (hs s hmem).mono hsubset
    · exact hs' s hmem
  · intro m hmem
    rcases List.mem_append.mp hmem with hmem | hmem
    · exact ⟨(hf m hmem).1, fun s hsm => ((hf m hmem).2 s hsm).mono hsubset⟩
    · refine ⟨?_, (hf' m hmem).2⟩
      have hle := (hf' m hmem).1
      rw [Text.stemLength_factory] at hle ⊢
      omega

theorem Furnished.push (h : u.Furnished recorded base w) {s : Statement}
    (hs : s.Resolves (· ∈ w.target.names) recorded) : u.Furnished recorded base (w.push s) := by
  obtain ⟨statements, hcurrent, hall⟩ := h.current
  refine ⟨h.distinct, ⟨statements ++ [s], ?_, fun t ht => ?_⟩, h.target, h.registry⟩
  · simp [Workshop.push, hcurrent]
  · rcases List.mem_append.mp ht with ht | ht
    · exact hall t ht
    · exact List.mem_singleton.mp ht ▸ hs

end Workshop

namespace Workshop

variable {base inner name : String} {w w₁ : Workshop}

/-- The name of a factory is not among those of the class when it is finished: it was free at the beginning, and
what has joined the class in the meantime has a longer name. -/
theorem Furnished.name_not_mem (h : Furnished recorded inner { w with current := .factory name } w₁)
    (hname : name = w.target.freeName w.current.name (base ++ "_Factory"))
    (hlength : base.toList.length < inner.toList.length) : name ∉ w₁.target.names := by
  obtain ⟨factories, htarget, hf⟩ := h.target
  intro hmem
  simp only [Class.names, htarget, List.map_append, List.mem_append] at hmem
  rcases hmem with hold | hnew
  · exact absurd hold (hname ▸ w.target.freeName_not_mem _ _)
  · obtain ⟨m, hm, heq⟩ := List.mem_map.mp hnew
    have hle := (hf m hm).1
    rw [heq, hname, Class.stemLength_freeName, Text.stemLength_factory, Text.stemLength_factory] at hle
    omega

/-- What has joined the class stays when the method that it was built for is dropped. -/
theorem Furnished.drop {m : Method} (h : Furnished recorded inner { w with current := m } w₁)
    (hlength : base.toList.length ≤ inner.toList.length) :
    w.Furnished recorded base { w₁ with current := w.current } := by
  obtain ⟨hdistinct, -, ⟨factories, htarget, hf⟩, hregistry⟩ := h
  refine ⟨hdistinct, ⟨[], by simp⟩, ⟨factories, htarget, fun m hm => ⟨?_, (hf m hm).2⟩⟩, hregistry⟩
  have hle := (hf m hm).1
  rw [Text.stemLength_factory] at hle ⊢
  omega

/-- One more method, whose name is new. -/
theorem Furnished.add {m : Method} (h : w.Furnished recorded base w₁) (hnew : m.name ∉ w₁.target.names)
    (hlength : Text.stemLength (base ++ "_Factory") ≤ Text.stemLength m.name)
    (hm : ∀ s ∈ m.body, s.Resolves (· ∈ w₁.target.names) recorded) :
    w.Furnished recorded base { w₁ with target := w₁.target.add m } := by
  obtain ⟨hdistinct, ⟨statements, hcurrent, hs⟩, ⟨factories, htarget, hf⟩, hregistry⟩ := h
  have hsubset (x : String) (hx : x ∈ w₁.target.names) : x ∈ (w₁.target.add m).names := by
    rw [Class.names_add]
    exact List.mem_append_left _ hx
  refine ⟨?_, ⟨statements, hcurrent, fun s hmem => (hs s hmem).mono hsubset⟩,
    ⟨factories ++ [m], by rw [Class.methods_add, htarget, List.append_assoc], ?_⟩, hregistry⟩
  · rw [Class.names_add]
    refine List.nodup_append.mpr ⟨hdistinct, List.nodup_singleton _, fun x hx y hy => ?_⟩
    rw [List.mem_singleton.mp hy]
    exact ne_of_mem_of_not_mem hx hnew
  · intro f hf'
    rcases List.mem_append.mp hf' with hf' | hf'
    · exact ⟨(hf f hf').1, fun s hmem => ((hf f hf').2 s hmem).mono hsubset⟩
    · obtain rfl := List.mem_singleton.mp hf'
      exact ⟨hlength, fun s hmem => (hm s hmem).mono hsubset⟩

end Workshop

/-- An emission that keeps method names distinct, and whose references find their methods. -/
def Emission.Furnishes (emission : Emission) : Prop :=
  ∀ ⦃scope v base w r w'⦄, w.target.names.Nodup →
    w.generator.registry.Within (fun _ => True) w.generator.options.order →
    emission scope v base w = some (r, w') →
    w.Furnished scope.Records base w' ∧
      ∀ e, r = .ok e → e.Resolves (· ∈ w'.target.names) scope.Records

section

variable {emission : Emission} {scope : Scope} {v : Value} {base inner name : String}
  {w w' : Workshop}

/-- When content fails, its factory is dropped, and the methods that have joined from inside it remain. -/
theorem Emission.Furnishes.inMethod_error (h : emission.Furnishes) {m : Method} {x : EmitError}
    (hn : w.target.names.Nodup)
    (hregistry : w.generator.registry.Within (fun _ => True) w.generator.options.order)
    (hlength : base.toList.length ≤ inner.toList.length)
    (hr : emission.inMethod m scope v inner w = some (.error x, w')) :
    w.Furnished scope.Records base w' := by
  obtain ⟨⟨r, w₁⟩, hw₁, heq⟩ := Option.map_eq_some_iff.mp hr
  obtain ⟨hinner, -⟩ := h (w := { w with current := m }) hn hregistry hw₁
  cases r with
  | ok e => cases heq
  | error x =>
    cases heq
    exact hinner.drop hlength

/-- When content succeeds, its factory joins the class under the name that was free at the beginning. -/
theorem Emission.Furnishes.inMethod_ok (h : emission.Furnishes) (hsteady : emission.Steady)
    {e : Expr} (hn : w.target.names.Nodup)
    (hregistry : w.generator.registry.Within (fun _ => True) w.generator.options.order)
    (hname : name = w.target.freeName w.current.name (base ++ "_Factory"))
    (hlength : base.toList.length < inner.toList.length)
    (hr : emission.inMethod (.factory name) scope v inner w = some (.ok e, w')) :
    w.Furnished scope.Records base w' ∧ name ∈ w'.target.names := by
  obtain ⟨⟨r, w₁⟩, hw₁, heq⟩ := Option.map_eq_some_iff.mp hr
  obtain ⟨hinner, hresult⟩ := h (w := { w with current := .factory name }) hn hregistry hw₁
  cases r with
  | error x => cases heq
  | ok e =>
    cases heq
    obtain ⟨more, hmore⟩ := (hsteady hw₁).current
    have hcalled : (w₁.current.push (.ret (some e))).name = name := by
      rw [Method.name_push, hmore]
      rfl
    -- the factory has what its content has written, and the return
    have hbody : ∀ s ∈ (w₁.current.push (.ret (some e))).body,
        s.Resolves (· ∈ w₁.target.names) scope.Records := by
      obtain ⟨statements, heq, hs⟩ := hinner.current
      have hwhole : w₁.current.body = statements := heq
      intro s hmem
      rw [Method.body_push, hwhole] at hmem
      rcases List.mem_append.mp hmem with hmem | hmem
      · exact hs s hmem
      · obtain rfl := List.mem_singleton.mp hmem
        intro x hx
        exact List.mem_singleton.mp hx ▸ hresult e rfl
    refine ⟨(hinner.drop (Nat.le_of_lt hlength)).add ?_ ?_ hbody, ?_⟩
    · rw [hcalled]
      exact hinner.name_not_mem hname hlength
    · apply Nat.le_of_eq
      rw [hcalled, hname, Class.stemLength_freeName]
    · rw [Class.names_add, hcalled]
      exact List.mem_append_right _ List.mem_cons_self

end

/-- Halfway through a recipe that was begun in workshop `u`. -/
structure Workshop.Midst (recorded : Expr → Prop) (base : String) (reading : Nat) (u : Workshop)
    (h : Hand) (w : Workshop) : Prop where
  code : u.Furnished recorded base w
  hand : h.Resolves (· ∈ w.target.names) recorded
  reading : w.generator.inProgress.length = reading

/-- Having emitted a part that is called by a longer name. -/
theorem Workshop.Midst.add {base inner : String} {reading : Nat} {u w w' : Workshop} {h : Hand}
    (hw : u.Midst recorded base reading h w) (hgrows : w.Grows w')
    (hnew : w.Furnished recorded inner w') (hlength : base.toList.length ≤ inner.toList.length)
    {e : Expr} (he : e.Resolves (· ∈ w'.target.names) recorded) (p : Part) :
    u.Midst recorded base reading (h.add p e) w' where
  code := hw.code.trans hnew hlength
  hand := (hw.hand.mono fun _ => hnew.names_subset).add he p
  reading := by rw [hgrows.inProgress, hw.reading]

/-- Every step of an orderly recipe keeps what is known halfway through. -/
theorem Scope.keeps_midst {emission : Emission} (hfurnishes : emission.Furnishes)
    (hsteady : emission.Steady) (scope : Scope) (options : Options) (base : String) (reading : Nat)
    (u : Workshop) :
    (scope.job options base reading).Keeps emission scope
      (fun h w => u.Midst scope.Records base reading h w) (u.Furnished scope.Records base) where
  answer hw o property := by rw [hw.reading]; rfl
  push hw hs := ⟨hw.code.push (hw.hand.of_allows hs), ⟨hw.hand.given, hw.hand.recorded⟩, hw.reading⟩
  recorded hw he := ⟨hw.code, hw.hand.addRecorded ⟨_, (Option.filter_eq_some_iff.mp he).1⟩, hw.reading⟩
  emitted hw _ _ hr := by
    obtain ⟨hnew, hresult⟩ := hfurnishes hw.code.distinct hw.code.registry hr
    exact hw.add (hsteady hr) hnew (options.length_le_nestedName ..) (hresult _ rfl) _
  factory hw _ _ hr hname := by
    obtain ⟨hnew, hknown⟩ := hfurnishes.inMethod_ok hsteady hw.code.distinct hw.code.registry hname
      (options.length_lt_root base) hr
    exact hw.add (hsteady.inMethod _ hr).1 hnew (Nat.le_refl _) (.methodGroup hknown) _
  emitFailed hw _ _ hr := by
    obtain ⟨hnew, -⟩ := hfurnishes hw.code.distinct hw.code.registry hr
    exact hw.code.trans hnew (options.length_le_nestedName ..)
  factoryFailed hw _ _ hr := by
    have hnew := hfurnishes.inMethod_error hw.code.distinct hw.code.registry
      (options.length_le_nestedName base "Root") hr
    exact hw.code.trans hnew (Nat.le_refl _)
  blamed hw := hw.code

namespace Generator

/-- What is settled at once refers to no method. -/
theorem opening_settled {g : Generator} {v : Value} {e : Expr}
    (h : g.opening v = .settled (.ok e)) : e.Resolves known recorded := by
  unfold opening at h
  split at h
  · cases h
  · cases hw : g.handling v with
    | null =>
      rw [hw] at h
      cases h
      exact .literal _
    | registered e' =>
      rw [hw] at h
      cases h
    | enumeration =>
      rw [hw] at h
      cases v <;> cases h
      exact .field _ (.type _)
    | locator =>
      simp only [hw, locator] at h
      split at h <;> cases h
      exact .new _ fun e he => by cases he
    | blueprint =>
      rw [hw] at h
      cases v <;> cases h

/-- Emitting a value keeps references sound when running the emitters of the generator does. -/
theorem emitVia_furnishes {run : Emitter → Emission}
    (hrun : ∀ e, e.IsOwn → (run e).Furnishes) : (emitVia run).Furnishes := by
  intro scope v base w r w' hn hw hr
  rw [emitVia_eq] at hr
  have hopens := w.generator.opens v
  cases hopening : w.generator.opening v with
  | settled r' =>
    rw [hopening] at hr
    cases hr
    refine ⟨.refl _ _ hn hw, fun e he => opening_settled (v := v) (g := w.generator) ?_⟩
    rw [hopening, he]
  | runs e g =>
    rw [hopening] at hopens hr
    cases hopens with
    | runs _ hoptions _ hcharge =>
      obtain ⟨⟨r₁, w₁⟩, hw₁, heq⟩ := Option.map_eq_some_iff.mp hr
      cases heq
      have hregistry := hcharge.within hw fun _ _ _ => trivial
      obtain ⟨hfurnished, hresult⟩ :=
        hrun e (hcharge.isOwn hw) (w := w.withGenerator g) hn (hoptions ▸ hregistry) hw₁
      obtain ⟨hdistinct, hcurrent, htarget, hregistry₁⟩ := hfurnished
      cases v <;> exact ⟨⟨hdistinct, hcurrent, htarget, hregistry₁⟩, hresult⟩

/-- By induction on the depth: the anatomy of an emitter says what it gathers, and every step keeps the
references sound. -/
theorem runWithin_furnishes (depth : Nat) {e : Emitter} (he : e.IsOwn) :
    (runWithin depth e).Furnishes := by
  induction depth generalizing e with
  | zero =>
    intro scope v base w r w' hn hw hr
    cases hr
  | succ depth ih =>
    intro scope v base w r w' hn hw hr
    have hkeeps := scope.keeps_midst (emitVia_furnishes fun e he => ih he)
      (emitVia_steady (runWithin_steady depth)) w.generator.options base
      w.generator.inProgress.length w
    have horderly := Emitter.orderly (j := scope.job w.generator.options base
      w.generator.inProgress.length) (v := v) he trivial
    have hmidst : w.Midst scope.Records base w.generator.inProgress.length {} w :=
      ⟨.refl _ _ hn hw, ⟨nofun, nofun⟩, rfl⟩
    obtain ⟨e, k, rfl, hfinishes, hk⟩ | ⟨x, rfl, hcode⟩ := horderly.follow hkeeps hmidst hr
    · refine ⟨hk.code, fun e' he' => ?_⟩
      cases he'
      exact hk.hand.of_makes hfinishes.1
    · exact ⟨hcode, nofun⟩

/-- This holds for an emission from the outside as well. -/
theorem emit_furnishes : emit.Furnishes := by
  intro scope v base w r w' hn hw hr
  have hrun (e : Emitter) (he : e.IsOwn) := runWithin_furnishes (depthBound scope.heap v) he
  exact emitVia_furnishes hrun hn hw hr

end Generator

/-- Exactly one method of the class has the name. -/
def Class.NamesOne (c : Class) (name : String) : Prop := c.names.count name = 1

/-- In a class with distinct names each name is that of exactly one method. -/
theorem Class.namesOne_of_mem {c : Class} (hn : c.names.Nodup) {name : String}
    (h : name ∈ c.names) : c.NamesOne name :=
  List.count_eq_one_of_mem hn h

/-- Whatever is emitted, method names stay distinct. When it succeeds, every reference to a method, in the result, in
the new statements and in the new factories, is to exactly one method of the class, except in what is recorded under a
key that has been looked up. -/
theorem Generator.references_resolved {scope : Scope} {v : Value} {base : String} {w w' : Workshop}
    {r : Except EmitError Expr} (hnames : w.target.names.Nodup)
    (hregistry : w.generator.registry.Within (fun _ => True) w.generator.options.order)
    (h : emit scope v base w = some (r, w')) :
    w'.target.names.Nodup ∧ ∀ e, r = .ok e →
      e.Resolves w'.target.NamesOne (Request.Recalls ⟨depthBound scope.heap v, scope, v, base, w⟩) ∧
      (∃ statements, w'.current.body = w.current.body ++ statements ∧
        ∀ s ∈ statements, s.Resolves w'.target.NamesOne
          (Request.Recalls ⟨depthBound scope.heap v, scope, v, base, w⟩)) ∧
      ∃ factories, w'.target.methods = w.target.methods ++ factories ∧
        ∀ m ∈ factories, ∀ s ∈ m.body, s.Resolves w'.target.NamesOne
          (Request.Recalls ⟨depthBound scope.heap v, scope, v, base, w⟩) := by
  -- nothing changes when only what is looked up has been recorded in the first place
  obtain ⟨resources, hsame, hrecalls⟩ :=
    Request.exists_resources ⟨depthBound scope.heap v, scope, v, base, w⟩
  have h' : emit (scope.withResources resources) v base w = some (r, w') := hsame.trans h
  obtain ⟨⟨hdistinct, ⟨statements, hcurrent, hs⟩, ⟨factories, htarget, hf⟩, -⟩, hresult⟩ :=
    emit_furnishes hnames hregistry h'
  have hone (name : String) (hname : name ∈ w'.target.names) : w'.target.NamesOne name :=
    Class.namesOne_of_mem hdistinct hname
  refine ⟨hdistinct, fun e he => ⟨(hresult e he).imp hone hrecalls, ?_, ?_⟩⟩
  · exact ⟨statements, hcurrent, fun s hmem => (hs s hmem).imp hone hrecalls⟩
  · exact ⟨factories, htarget, fun m hm s hmem => ((hf m hm).2 s hmem).imp hone hrecalls⟩

/-- A template whose content is a template, whose content is one that refers to a recorded panel. -/
def nestingHeap : Heap :=
  ⟨#[{ values := [("VisualTree", .object { cell := 1, type := KnownType.controlTemplate.descriptor })] },
    { values := [("VisualTree", .object { cell := 2, type := KnownType.itemsPanelTemplate.descriptor })] },
    { values := [("VisualTree", .object { cell := 3, type := KnownType.resourceReference.descriptor })] },
    { values := [("ResourceKey", .string "panel")] }]⟩

def nestingScope : Scope where
  heap := nestingHeap
  resources := some ⟨[("panel", .methodGroup "CreatePanel")]⟩

def nestingTemplate : Value := .object { cell := 0, type := KnownType.dataTemplate.descriptor }

/-- A class that has used the first name already. -/
def nestingWorkshop : Workshop where
  current := { name := "InitializeResources" }
  target := { name := "Dictionary1", methods := [.factory "item_Factory"] }

def nestingRequest : Request where
  depth := Generator.depthBound nestingHeap nestingTemplate
  scope := nestingScope
  value := nestingTemplate
  base := "item"
  workshop := nestingWorkshop

theorem Generator.references_resolved_nesting :
    ∃ e w, emit nestingScope nestingTemplate "item" nestingWorkshop = some (.ok e, w) ∧
      w.target.methods.length = 4 ∧ w.target.names.Nodup ∧
      e.Resolves w.target.NamesOne nestingRequest.Recalls ∧
      (∃ statements, w.current.body = [] ++ statements ∧
        ∀ s ∈ statements, s.Resolves w.target.NamesOne nestingRequest.Recalls) ∧
      ∃ factories, w.target.methods = [.factory "item_Factory"] ++ factories ∧
        ∀ m ∈ factories, ∀ s ∈ m.body, s.Resolves w.target.NamesOne nestingRequest.Recalls := by
  have hsome : (emit nestingScope nestingTemplate "item" nestingWorkshop).any
      (fun x => x.1.isOk && x.2.target.methods.length == 4) = true := by
    decide +kernel
  obtain ⟨⟨r, w⟩, hw, hcounts⟩ := (Option.any_eq_true _ _).mp hsome
  simp only [Bool.and_eq_true, beq_iff_eq] at hcounts
  obtain ⟨hok, hmethods⟩ := hcounts
  cases r with
  | error x => cases hok
  | ok e =>
    have hnames : nestingWorkshop.target.names.Nodup := List.nodup_singleton "item_Factory"
    obtain ⟨hdistinct, hresolved⟩ :=
      references_resolved hnames (Registry.within_builtin _ _) hw
    exact ⟨e, w, hw, hmethods, hdistinct, hresolved e rfl⟩

end ResourceCode
