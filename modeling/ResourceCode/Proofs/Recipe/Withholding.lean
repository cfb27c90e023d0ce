import ResourceCode.Proofs.Recipe.Journal

/-!
Recipes that hold their statements back: as soon as they write the first one, nothing can go wrong any more. All
emitters do this but those for solid colors and linear gradients, and even these do it until the brush stands.
-/

namespace ResourceCode

namespace Recipe

variable {α β : Type}

/-- Writes and does nothing else, so that it always comes to a result. -/
def IsWriting : Recipe α → Prop
  | .done _ => True
  | .push _ next => next.IsWriting
  | _ => False

/-- Before the first statement a recipe may do whatever it likes; what follows it has the property `rest`. -/
def OnceWriting (rest : Recipe α → Prop) : Recipe α → Prop
  | .done _ => True
  | .fail _ => True
  | .push _ next => rest next
  | .read _ _ next => ∀ r, (next r).OnceWriting rest
  | .emit _ _ next => ∀ r, (next r).OnceWriting rest
  | .delegate _ _ _ next => ∀ r, (next r).OnceWriting rest
  | .recorded _ next => ∀ r, (next r).OnceWriting rest
  | .factory _ _ _ next => ∀ r, (next r).OnceWriting rest

/-- Writes nothing itself. -/
def IsPreparing (r : Recipe α) : Prop := r.OnceWriting fun _ => False

/-- Once it writes, it only writes. -/
def Withholds (r : Recipe α) : Prop := r.OnceWriting IsWriting

/-- After preparing nothing has been written yet, so what follows may still do whatever it likes. -/
theorem IsPreparing.bind {r : Recipe α} {f : α → Recipe β} {rest : Recipe β → Prop}
    (hr : r.IsPreparing) (hf : ∀ a, (f a).OnceWriting rest) : (r.bind f).OnceWriting rest := by
  induction r with
  | done a => exact hf a
  | fail e => trivial
  | push s next ih => exact hr.elim
  | read o property next ih => exact fun x => ih x (hr x)
  | emit v base next ih => exact fun x => ih x (hr x)
  | delegate type v base next ih => exact fun x => ih x (hr x)
  | recorded key next ih => exact fun x => ih x (hr x)
  | factory stem content root next ih => exact fun x => ih x (hr x)

/-- Reading writes nothing, so it can stand in front. -/
theorem IsReading.isPreparing {r : Recipe α} (hr : r.IsReading) : r.IsPreparing := by
  induction r with
  | done a => trivial
  | fail e => trivial
  | read o property next ih => exact fun x => ih x (hr x)
  | _ => exact hr.elim

/-- A recipe that reads first. -/
theorem IsReading.bind_onceWriting {r : Recipe α} {f : α → Recipe β} {rest : Recipe β → Prop}
    (hr : r.IsReading) (hf : ∀ a, (f a).OnceWriting rest) : (r.bind f).OnceWriting rest :=
  hr.isPreparing.bind hf

/-- What only writes cannot fail. -/
theorem IsWriting.follow_ok {r : Recipe α} (hr : r.IsWriting) (emit : Emission)
    (run : Emitter → Emission) (scope : Scope) (w : Workshop) :
    ∃ a w', r.follow emit run scope w = some (.ok a, w') := by
  induction r generalizing w with
  | done a => exact ⟨a, w, rfl⟩
  | push s next ih => exact ih hr (w.push s)
  | _ => exact hr.elim

/-- A recipe that holds its statements back has written none of them when it fails. -/
theorem Withholds.journal_of_error {r : Recipe α} (hr : r.Withholds) {emit : Emission}
    {run : Emitter → Emission} {scope : Scope} {w w' : Workshop} {x : EmitError}
    (h : r.follow emit run scope w = some (.error x, w')) :
    ∀ entry ∈ r.journal emit run scope w, entry.IsNested := by
  induction r generalizing w with
  | done a => exact nofun
  | fail e => exact nofun
  | push s next ih =>
    -- behind the first statement nothing fails
    obtain ⟨a, u, hok⟩ := IsWriting.follow_ok hr emit run scope (w.push s)
    cases h.symm.trans hok
  | read o property next ih => exact ih _ (hr _) h
  | emit v base next ih =>
    obtain ⟨⟨y, u⟩, hy, hnext⟩ := Option.bind_eq_some_iff.mp h
    simp only [journal, hy, Option.elim_some, List.forall_mem_cons]
    exact ⟨trivial, ih y (hr y) hnext⟩
  | delegate type v base next ih =>
    rw [follow] at h
    cases hfind : w.generator.registry.find? type with
    | some e =>
      rw [hfind] at h
      obtain ⟨⟨y, u⟩, hy, hnext⟩ := Option.bind_eq_some_iff.mp h
      simp only [journal, hfind, hy, Option.elim_some, List.forall_mem_cons]
      exact ⟨trivial, ih y (hr y) hnext⟩
    | none =>
      rw [hfind] at h
      simp only [journal, hfind]
      exact ih _ (hr _) h
  | recorded key next ih => exact ih _ (hr _) h
  | factory stem content root next ih =>
    obtain ⟨⟨y, u⟩, hy, hnext⟩ := Option.bind_eq_some_iff.mp h
    simp only [journal, hy, Option.elim_some, List.forall_mem_cons]
    exact ⟨trivial, ih _ (hr _) hnext⟩

theorem isPreparing_ofExcept (r : Except EmitError α) : (ofExcept r).IsPreparing := by
  cases r <;> trivial

theorem isPreparing_nested (v : Value) (base : String) : (nested v base).IsPreparing :=
  isPreparing_ofExcept

theorem isPreparing_forEach {f : α → Recipe β} (hf : ∀ a, (f a).IsPreparing) (items : List α) :
    (forEach f items).IsPreparing := by
  induction items with
  | nil => trivial
  | cons a items ih => exact (hf a).bind fun _ => IsPreparing.bind ih fun _ => trivial

theorem isPreparing_emitted? (o : Object) (property base : String) :
    (emitted? o property base).IsPreparing := by
  refine (isReading_get o property).bind_onceWriting fun v => ?_
  split
  · trivial
  · exact (isPreparing_nested v base).bind fun _ => trivial

theorem isWriting_addAll (statements : List Statement) : (addAll statements).IsWriting := by
  induction statements with
  | nil => trivial
  | cons s statements ih => exact ih

theorem IsWriting.bind {r : Recipe α} {f : α → Recipe β} (hr : r.IsWriting)
    (hf : ∀ a, (f a).IsWriting) : (r.bind f).IsWriting := by
  induction r with
  | done a => exact hf a
  | push s next ih => exact ih hr
  | _ => exact hr.elim

theorem withholds_build (name : String) (t : TypeRef) (args : List Expr) (more : List Statement) :
    (build name t args more).Withholds :=
  (isWriting_addAll more).bind fun _ => trivial

variable (options : Options) (v : Value) (base : String)

theorem withholds_primitive (p : Primitive) : (primitive p v).Withholds := by
  unfold primitive
  split
  · split <;> trivial
  · trivial

theorem withholds_construction (c : Construction) : (c.recipe v).Withholds := by
  refine (isReading_asObject v).bind_onceWriting fun o => ?_
  refine (isPreparing_forEach (fun a => ?_) c.arguments).bind fun _ => trivial
  cases a with
  | integer property => exact (isReading_getInt32 o property).bind_onceWriting fun _ => trivial
  | single property => exact (isReading_getSingle o property).bind_onceWriting fun _ => trivial

/-- Fields are emitted before anything is declared. -/
theorem isPreparing_members (o : Object) (fields : List Field) :
    (Field.members options o base fields).IsPreparing := by
  refine (isPreparing_forEach (fun f => ?_) fields).bind fun _ => trivial
  unfold Field.recipe
  split
  · exact (isReading_getSingle? o f.property).bind_onceWriting fun _ => trivial
  · exact (isPreparing_emitted? o f.property _).bind fun _ => trivial

theorem withholds_initializer (i : Initializer) : (i.recipe options v base).Withholds :=
  (isReading_asObject v).bind_onceWriting fun o =>
    (isPreparing_members options base o i.fields).bind fun _ => withholds_build ..

theorem withholds_template (t : Template) : (t.recipe options v base).Withholds := by
  refine (isReading_asObject v).bind_onceWriting fun o => ?_
  refine (t.isReading_appliesTo o).bind_onceWriting fun type => ?_
  refine (isReading_get o "VisualTree").bind_onceWriting fun content => ?_
  exact IsPreparing.bind isPreparing_ofExcept fun _ => trivial

theorem withholds_animation (a : Animation) : (a.recipe options v base).Withholds := by
  refine (isReading_asObject v).bind_onceWriting fun o => ?_
  refine (isPreparing_members options base o a.ends).bind fun ends => ?_
  refine (isReading_getSingle? o "Duration").bind_onceWriting fun seconds => ?_
  refine (isReading_getString? o "TargetName").bind_onceWriting fun name => ?_
  exact (isReading_getString? o "TargetProperty").bind_onceWriting fun _ => withholds_build ..

theorem withholds_resourceReference : (resourceReference v).Withholds := by
  refine (isReading_asObject v).bind_onceWriting fun o => ?_
  refine (isReading_getString o "ResourceKey").bind_onceWriting fun key x => ?_
  cases x <;> trivial

theorem withholds_style : (style options v base).Withholds := by
  refine (isReading_asObject v).bind_onceWriting fun o => ?_
  refine (isReading_getString? o "TargetType").bind_onceWriting fun target => ?_
  refine (isPreparing_emitted? o "BasedOn" _).bind fun basedOn => ?_
  refine (isReading_getList o "Setters").bind_onceWriting fun setters => ?_
  refine (isPreparing_forEach (fun v => ?_) setters).bind fun _ => withholds_build ..
  refine (isReading_asObject v).bind_onceWriting fun o => ?_
  refine (isReading_getString o "Property").bind_onceWriting fun property => ?_
  refine (isReading_get o "Value").bind_onceWriting fun current => ?_
  exact (isPreparing_nested current _).bind fun _ => trivial

theorem withholds_fontFamily : (fontFamily v).Withholds :=
  (isReading_asObject v).bind_onceWriting fun o =>
    (isReading_getString o "Source").bind_onceWriting fun _ => trivial

theorem withholds_fontWeight : (fontWeight v).Withholds :=
  (isReading_asObject v).bind_onceWriting fun o =>
    (isReading_getInt32 o "Weight").bind_onceWriting fun _ => trivial

theorem withholds_list : (list options v base).Withholds := by
  unfold list
  split
  · refine (isPreparing_forEach (fun item => ?_) _).bind fun _ => withholds_build ..
    exact isPreparing_nested item.1 _
  · trivial

theorem withholds_blueprint (b : Blueprint) : (b.recipe options v base).Withholds := by
  refine (isReading_asObject v).bind_onceWriting fun o => ?_
  refine (isPreparing_forEach (fun property => ?_) b.carried).bind fun _ => withholds_build ..
  refine (isReading_get o property).bind_onceWriting fun current => ?_
  exact (isPreparing_nested current _).bind fun _ => trivial

theorem withholds_solidColor (o : Object) : (solidColor options o base).Withholds :=
  (isReading_get o "Color").bind_onceWriting fun current =>
    (isPreparing_nested current _).bind fun _ => withholds_build ..

theorem isPreparing_gradientEnd (o : Object) (member : String) :
    (gradientEnd options o base member).IsPreparing :=
  (isPreparing_emitted? o member _).bind fun _ => trivial

theorem withholds_linearGradient (o : Object) : (linearGradient options o base).Withholds := by
  refine (isPreparing_gradientEnd options base o "StartPoint").bind fun start => ?_
  refine (isPreparing_gradientEnd options base o "EndPoint").bind fun finish => ?_
  refine (isReading_getList o "GradientStops").bind_onceWriting fun stops => ?_
  refine (isPreparing_forEach (fun stop => ?_) stops.zipIdx).bind fun _ => withholds_build ..
  refine (isReading_asObject stop.1).bind_onceWriting fun o => ?_
  refine (isReading_get o "Color").bind_onceWriting fun current => ?_
  refine (isPreparing_nested current _).bind fun _ => ?_
  exact (isReading_getSingle o "Offset").bind_onceWriting fun _ => trivial

end Recipe

end ResourceCode
