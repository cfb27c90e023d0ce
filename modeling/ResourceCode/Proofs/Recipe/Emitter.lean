import ResourceCode.Proofs.Recipe.Orderly

/-!
Every built-in emitter and every drafted one follows an orderly recipe, and has gone through the anatomy of
its value when it comes to its end.
-/

namespace ResourceCode

open Recipe

variable {j : Job} {h : Hand} {v : Value} {o : Object}

theorem Hand.makes_construct_string (h : Hand) (base type s : String) :
    h.Makes base (.construct type [.string s]) :=
  .new _ fun _ he => List.mem_singleton.mp he ▸ .literal _

/-- A member with its value, when there is one. -/
def Hand.MakesMember (h : Hand) (base : String) (x : Option (String × Expr)) : Prop :=
  ∀ m ∈ x, h.Makes base m.2

/-- A member that can be written goes on being so when more has been given. -/
theorem Hand.MakesMember.mono {k : Hand} {base : String} {x : Option (String × Expr)}
    (hk : h.Le k) (hx : h.MakesMember base x) : k.MakesMember base x :=
  fun m hm => (hx m hm).mono hk

/-- An initial hand that has gathered parts ends with a local. -/
theorem Job.finishes_declare {parts : List Part} {k : Hand}
    (hk : ({} : Hand).Gathers parts k) :
    j.Finishes { parts, hasLocal := true } (.var j.base) k.declare :=
  ⟨.var rfl, by rw [Hand.anatomy_declare, hk.anatomy_eq]⟩

theorem orderly_primitive (p : Primitive) (hv : j.owned v) :
    (Recipe.primitive p v).Orderly j {} (j.Finishes {}) := by
  unfold Recipe.primitive
  split
  · split
    · exact ⟨.literal _, rfl⟩
    · exact .unsupported _ hv
  · exact .unsupported _ hv

theorem orderly_argument (ho : j.owned (.object o)) (a : Argument) :
    (a.recipe o).Orderly j h fun e k => h.Gathers [] k ∧ k.Makes j.base e := by
  cases a with
  | integer property => exact (orderly_getInt32 ho fun x => ⟨.refl h, .literal _⟩).bind
  | single property => exact (orderly_getSingle ho fun x => ⟨.refl h, .literal _⟩).bind

/-- A construction reads its arguments and owns no local. -/
theorem orderly_construction (c : Construction) (hv : j.owned v) :
    (c.recipe v).Orderly j {} (j.Finishes {}) := by
  refine Orderly.bind (orderly_asObject hv fun o ho => ?_)
  subst ho
  have hargs : (forEach (Argument.recipe o) c.arguments).Orderly j {} _ :=
    orderly_forEach (fun _ => []) (P := fun e k => k.Makes j.base e)
      (fun _ _ _ hk he => he.mono hk) rfl fun a _ k _ => orderly_argument hv a
  refine Orderly.bind (hargs.mono fun args k ⟨hk, hmakes⟩ => ?_)
  exact ⟨.new _ hmakes, by rw [hk.anatomy_eq, List.flatMap_eq_nil_iff.mpr fun _ _ => rfl]⟩

theorem orderly_fontFamily (hv : j.owned v) :
    (Recipe.fontFamily v).Orderly j {} (j.Finishes {}) := by
  refine Orderly.bind (orderly_asObject hv fun o ho => ?_)
  subst ho
  refine Orderly.bind (orderly_getString hv fun s _ => ?_)
  exact ⟨Hand.makes_construct_string .., rfl⟩

theorem makes_fontWeightExpr (h : Hand) (base : String) (weight : Int32) :
    h.Makes base (fontWeightExpr weight) := by
  unfold fontWeightExpr
  split
  · exact .field _ (.type _)
  · exact .call _ (.type _) (by simpa using Hand.Makes.literal _)

theorem orderly_fontWeight (hv : j.owned v) :
    (Recipe.fontWeight v).Orderly j {} (j.Finishes {}) := by
  refine Orderly.bind (orderly_asObject hv fun o ho => ?_)
  subst ho
  exact Orderly.bind (orderly_getInt32 hv fun x => ⟨makes_fontWeightExpr _ _ x, rfl⟩)

theorem orderly_resourceReference (hv : j.owned v) :
    (Recipe.resourceReference v).Orderly j {} (j.Finishes {}) := by
  refine Orderly.bind (orderly_asObject hv fun o ho => ?_)
  subst ho
  refine Orderly.bind (orderly_getString hv fun s _ => ?_)
  refine ⟨⟨Hand.makes_construct_string .., rfl⟩, fun e => ?_⟩
  exact ⟨.recorded (by simp [Hand.addRecorded]), rfl⟩

/-- A template reads its content, has it built by a factory, and is constructed from that. -/
theorem orderly_template (t : Template) (hv : j.owned v) :
    (t.recipe j.options v j.base).Orderly j {}
      (j.Finishes ((Emitter.builtin (.template t)).anatomy j.answer v)) := by
  refine Orderly.bind (orderly_asObject hv fun o ho => ?_)
  subst ho
  have htype : (t.appliesTo o).Orderly j {} fun _ k => k = {} := by
    unfold Template.appliesTo
    split
    · exact orderly_getString? hv fun _ _ => rfl
    · exact rfl
  refine Orderly.bind (htype.mono fun type k hk => ?_)
  subst hk
  refine Orderly.bind (orderly_get hv fun hc => ?_)
  refine Orderly.bind ⟨rfl, rfl, hc, rfl, fun _ => rfl, fun name => ?_⟩
  refine ⟨.new _ fun e he => ?_, rfl⟩
  rcases List.mem_append.mp he with he | he
  · obtain ⟨type, _, rfl⟩ : ∃ x, type = some x ∧ Expr.typeOf (.ofName ⟨x⟩) = e := by simpa using he
    exact .typeOf _
  · rw [List.mem_singleton.mp he]
    exact Hand.makes_add ..

theorem orderly_field (ho : j.owned (.object o)) (hd : h.declared = false) (f : Field) :
    (f.recipe j.options o j.base).Orderly j h fun x k =>
      h.Gathers (j.answer.fieldParts o f) k ∧ k.MakesMember j.base x := by
  unfold Field.recipe Answers.fieldParts
  cases f.kind with
  | single =>
    refine Orderly.bind (orderly_getSingle? ho fun x => ⟨.refl h, fun m hm => ?_⟩)
    obtain ⟨s, _, rfl⟩ := Option.map_eq_some_iff.mp hm
    exact .literal _
  | value =>
    refine Orderly.bind (orderly_emitted? ho hd fun x k hk hx => ⟨hk, fun m hm => ?_⟩)
    obtain ⟨e, he, rfl⟩ := Option.map_eq_some_iff.mp hm
    exact hx e he

/-- Fields are written in order, before anything is declared. -/
theorem orderly_members (ho : j.owned (.object o)) (hd : h.declared = false) (fields : List Field) :
    (Field.members j.options o j.base fields).Orderly j h fun ms k =>
      h.Gathers (fields.flatMap (j.answer.fieldParts o)) k ∧ ∀ m ∈ ms, k.Makes j.base m.2 := by
  refine Orderly.bind ((orderly_forEach _ (P := fun x k => k.MakesMember j.base x)
    (fun _ _ _ hk hx => hx.mono hk) hd fun f _ k hk => orderly_field ho hk f).mono
    fun xs k ⟨hk, hxs⟩ => ⟨hk, fun m hm => ?_⟩)
  obtain ⟨x, hx, hxm⟩ := List.mem_filterMap.mp hm
  exact hxs x hx m hxm

/-- An initializer writes its fields and then declares its local. -/
theorem orderly_initializer (i : Initializer) (hv : j.owned v) :
    (i.recipe j.options v j.base).Orderly j {}
      (j.Finishes ((Emitter.builtin (.initializer i)).anatomy j.answer v)) := by
  refine Orderly.bind (orderly_asObject hv fun o ho => ?_)
  subst ho
  refine Orderly.bind ((orderly_members hv rfl i.fields).mono fun ms k ⟨hk, hms⟩ => ?_)
  exact orderly_buildMembers hk.declared hms (Job.finishes_declare hk)

theorem Hand.allows_setMember {base : String} (hd : h.declared = true) (member : String) {e : Expr}
    (he : h.Makes base e) :
    (Statement.setMember base member e).declared? = none ∧
      h.Allows base (.setMember base member e) :=
  ⟨rfl, h.makes_field_var hd member, he⟩

theorem Hand.allows_add {base : String} {target e : Expr} (ht : h.Makes base target)
    (he : h.Makes base e) :
    (Statement.add target e).declared? = none ∧ h.Allows base (.add target e) :=
  ⟨rfl, .call _ ht fun _ ha => List.mem_singleton.mp ha ▸ he⟩

theorem allows_storyboard {base : String} (hd : h.declared = true) (method text : String) :
    (Animation.storyboard method base text).declared? = none ∧
      h.Allows base (Animation.storyboard method base text) := by
  refine ⟨rfl, .call _ (.type _) fun e he => ?_⟩
  rcases List.mem_cons.mp he with rfl | he
  · exact .var hd
  · exact List.mem_singleton.mp he ▸ .literal _

theorem makes_duration (h : Hand) (base : String) (seconds : Number.Single) :
    h.Makes base (Animation.duration seconds) :=
  .new _ fun _ he => List.mem_singleton.mp he ▸ .call _ (.type _) fun _ ha =>
    List.mem_singleton.mp ha ▸ .literal _

/-- An animation writes its ends, declares its local and then speaks only about that. -/
theorem orderly_animation (a : Animation) (hv : j.owned v) :
    (a.recipe j.options v j.base).Orderly j {}
      (j.Finishes ((Emitter.builtin (.animation a)).anatomy j.answer v)) := by
  refine Orderly.bind (orderly_asObject hv fun o ho => ?_)
  subst ho
  refine Orderly.bind ((orderly_members hv rfl a.ends).mono fun ms k ⟨hk, hms⟩ => ?_)
  refine Orderly.bind (orderly_getSingle? hv fun seconds => ?_)
  refine Orderly.bind (orderly_getString? hv fun name _ => ?_)
  refine Orderly.bind (orderly_getString? hv fun property _ => ?_)
  refine orderly_build hk.declared (by simp) (fun s hs => ?_) (Job.finishes_declare hk)
  rw [List.mem_append, List.mem_append, List.mem_map] at hs
  rcases hs with (⟨m, hm, rfl⟩ | hs) | hs
  · refine Hand.allows_setMember rfl m.1 ?_
    rcases List.mem_append.mp hm with hm | hm
    · exact (hms m hm).mono k.le_declare
    · obtain ⟨x, _, rfl⟩ := Option.map_eq_some_iff.mp (Option.mem_toList.mp hm)
      exact makes_duration _ _ x
  · obtain ⟨t, _, rfl⟩ := Option.map_eq_some_iff.mp (Option.mem_toList.mp hs)
    exact allows_storyboard rfl _ t
  · obtain ⟨t, _, rfl⟩ := Option.map_eq_some_iff.mp (Option.mem_toList.mp hs)
    exact allows_storyboard rfl _ t

/-- The opacity is read when the local has been declared, and assigned to it. -/
theorem orderly_addOpacity {Q : Unit → Hand → Prop} (ho : j.owned (.object o))
    (hd : h.declared = true) (hQ : Q () h) : (addOpacity o j.base).Orderly j h Q := by
  refine Orderly.bind (orderly_getSingle? ho fun x => ?_)
  cases x with
  | none => exact hQ
  | some x =>
    dsimp only
    split
    · have hopacity : (addAll [.setMember j.base "Opacity" (.literal (.single x))]).Orderly j h Q :=
        orderly_addAll (fun s hs => List.mem_singleton.mp hs ▸
          Hand.allows_setMember hd "Opacity" (.literal _)) hQ
      exact hopacity
    · exact hQ

theorem orderly_solidColorBrush (hv : j.owned v) :
    (Recipe.solidColorBrush j.options v j.base).Orderly j {}
      (j.Finishes ((Emitter.builtin .solidColorBrush).anatomy j.answer v)) := by
  refine Orderly.bind (orderly_asObject hv fun o ho => ?_)
  subst ho
  refine Orderly.bind (orderly_get hv fun hc => ?_)
  refine Orderly.bind (orderly_nested hc rfl fun color => ?_)
  have hk := Hand.gathers_add {} { member := "Color", value := j.answer.value o "Color" } color
  refine Orderly.bind (orderly_buildMembers rfl (by simpa using Hand.makes_add ..) ?_)
  exact Orderly.bind (orderly_addOpacity hv rfl (Job.finishes_declare hk))

/-- An end of a gradient is one part of the brush if it is there. -/
theorem orderly_gradientEnd (ho : j.owned (.object o)) (hd : h.declared = false)
    (member : String) :
    (gradientEnd j.options o j.base member).Orderly j h fun x k =>
      h.Gathers (j.answer.present o member member) k ∧ k.MakesMember j.base x := by
  refine Orderly.bind (orderly_emitted? ho hd fun x k hk hx => ⟨hk, fun m hm => ?_⟩)
  obtain ⟨e, he, rfl⟩ := Option.map_eq_some_iff.mp hm
  exact hx e he

/-- A stop has its colour as a part. -/
theorem orderly_gradientStop {stop : Value × Nat} (hs : j.owned stop.1) (hd : h.declared = false) :
    (gradientStop j.options j.base stop).Orderly j h fun e k =>
      h.Gathers (j.answer.stopParts stop) k ∧ k.Makes j.base e := by
  refine Orderly.bind (orderly_asObject hs fun o ho => ?_)
  rw [ho] at hs
  refine Orderly.bind (orderly_get hs fun hc => ?_)
  refine Orderly.bind (orderly_nested hc hd fun color => ?_)
  refine Orderly.bind (orderly_getSingle hs fun offset => ⟨?_, .new _ fun e he => ?_⟩)
  · simpa [Answers.stopParts, ho] using h.gathers_add _ color
  · rcases List.mem_cons.mp he with rfl | he
    · exact h.makes_add ..
    · exact List.mem_singleton.mp he ▸ .literal _

/-- A gradient has its ends and the colours of its stops as parts. -/
theorem orderly_linearGradientBrush (hv : j.owned v) :
    (Recipe.linearGradientBrush j.options v j.base).Orderly j {}
      (j.Finishes ((Emitter.builtin .linearGradientBrush).anatomy j.answer v)) := by
  refine Orderly.bind (orderly_asObject hv fun o ho => ?_)
  subst ho
  refine Orderly.bind ((orderly_forEach _ (P := fun x k => k.MakesMember j.base x)
    (fun _ _ _ hk hx => hx.mono hk) rfl fun member _ k hk => orderly_gradientEnd hv hk member).mono
    fun ends k ⟨hk, hends⟩ => ?_)
  refine Orderly.bind (orderly_getList hv fun hstops => ?_)
  refine Orderly.bind ((orderly_forEach _ (P := fun e k => k.Makes j.base e)
    (fun _ _ _ hl he => he.mono hl) hk.declared fun stop hs l hl =>
      orderly_gradientStop (hstops _ (List.fst_mem_of_mem_zipIdx hs)) hl).mono
    fun stops l ⟨hl, hmakes⟩ => ?_)
  have hd : l.declared = false := hl.declared.trans hk.declared
  refine Orderly.bind (orderly_build hd (by simp) (fun s hs => ?_)
    (Orderly.bind (orderly_addOpacity hv rfl (Job.finishes_declare (hk.trans hl)))))
  rw [List.mem_append, List.mem_map, List.mem_map] at hs
  rcases hs with ⟨m, hm, rfl⟩ | ⟨e, he, rfl⟩
  · obtain ⟨x, hx, hxm⟩ := List.mem_filterMap.mp hm
    exact Hand.allows_setMember rfl m.1 (((hends x hx m hxm).mono hl.le).mono l.le_declare)
  · exact Hand.allows_add (Hand.makes_field_var _ rfl _) ((hmakes e he).mono l.le_declare)

theorem setterTarget_snd (target : Option TypeRef) (property : String) :
    (setterTarget target property).2 = (setterTarget none property).2 := by
  unfold setterTarget
  split <;> rfl

/-- A setter has its value as a part. -/
theorem orderly_setter (target : Option TypeRef) (hv : j.owned v) (hd : h.declared = false) :
    (setter j.options j.base target v).Orderly j h fun e k =>
      h.Gathers (j.answer.setterParts v) k ∧ k.Makes j.base e := by
  refine Orderly.bind (orderly_asObject hv fun o ho => ?_)
  subst ho
  refine Orderly.bind (orderly_getString hv fun property hp => ?_)
  refine Orderly.bind (orderly_get hv fun hc => ?_)
  refine Orderly.bind (orderly_nested hc hd fun e => ⟨?_, .new _ fun x hx => ?_⟩)
  · change h.Gathers (j.answer.setterParts (.object o))
      (h.add { member := Text.identifier (setterTarget target property).2, value := _ } e)
    rw [setterTarget_snd]
    simpa [Answers.setterParts, hp] using h.gathers_add _ e
  · rcases List.mem_cons.mp hx with rfl | hx
    · exact .field _ (.type _)
    · exact List.mem_singleton.mp hx ▸ h.makes_add ..

/-- A style has the values of its setters as parts. -/
theorem orderly_style (hv : j.owned v) :
    (Recipe.style j.options v j.base).Orderly j {}
      (j.Finishes ((Emitter.builtin .style).anatomy j.answer v)) := by
  refine Orderly.bind (orderly_asObject hv fun o ho => ?_)
  subst ho
  refine Orderly.bind (orderly_getString? hv fun target _ => ?_)
  refine Orderly.bind (orderly_emitted? hv rfl fun basedOn k hk hbase => ?_)
  refine Orderly.bind (orderly_getList hv fun hsetters => ?_)
  refine Orderly.bind ((orderly_forEach _ (P := fun e k => k.Makes j.base e)
    (fun _ _ _ hl he => he.mono hl) hk.declared fun s hs l hl =>
      orderly_setter _ (hsetters s hs) hl).mono fun setters l ⟨hl, hmakes⟩ => ?_)
  have hd : l.declared = false := hl.declared.trans hk.declared
  refine orderly_build hd (fun e he => ?_) (fun s hs => ?_) (Job.finishes_declare (hk.trans hl))
  · rcases List.mem_append.mp he with he | he
    · obtain ⟨t, _, rfl⟩ := Option.map_eq_some_iff.mp (Option.mem_toList.mp he)
      exact .typeOf t
    · exact (hbase e (Option.mem_toList.mp he)).mono hl.le
  · obtain ⟨e, he, rfl⟩ := List.mem_map.mp hs
    exact Hand.allows_add (Hand.makes_field_var _ rfl _) ((hmakes e he).mono l.le_declare)

/-- A list has its items as parts. -/
theorem orderly_list (hv : j.owned v) :
    (Recipe.list j.options v j.base).Orderly j {}
      (j.Finishes ((Emitter.builtin .list).anatomy j.answer v)) := by
  cases v with
  | list items =>
    refine Orderly.bind ((orderly_forEach (fun item => [{ member := toString item.2, value := item.1 }])
      (P := fun e k => k.Makes j.base e) (fun _ _ _ hk he => he.mono hk) rfl fun item hi k hk =>
        orderly_nested (j.owned_item hv (List.fst_mem_of_mem_zipIdx hi)) hk fun e =>
          ⟨k.gathers_add _ e, k.makes_add ..⟩).mono fun es k ⟨hk, hes⟩ => ?_)
    rw [← List.map_eq_flatMap] at hk
    refine orderly_build hk.declared (by simp) (fun s hs => ?_) (Job.finishes_declare hk)
    obtain ⟨e, he, rfl⟩ := List.mem_map.mp hs
    exact Hand.allows_add (.var rfl) ((hes e he).mono k.le_declare)
  | literal l => exact .unsupported _ hv
  | member type name => exact .unsupported _ hv
  | object o => exact .unsupported _ hv

/-- A drafted emitter has what its carried properties hold as parts. -/
theorem orderly_drafted (b : Blueprint) (hv : j.owned v) :
    (b.recipe j.options v j.base).Orderly j {}
      (j.Finishes ((Emitter.drafted b).anatomy j.answer v)) := by
  refine Orderly.bind (orderly_asObject hv fun o ho => ?_)
  subst ho
  have hmember (property : String) (k : Hand) (hk : k.declared = false) :
      (Blueprint.member j.options o j.base property).Orderly j k fun m l =>
        k.Gathers [{ member := property, value := j.answer.value o property }] l ∧ l.Makes j.base m.2 :=
    Orderly.bind (orderly_get hv fun hc => Orderly.bind (orderly_nested hc hk fun e =>
      ⟨k.gathers_add _ e, k.makes_add ..⟩))
  refine Orderly.bind ((orderly_forEach _ (P := fun (m : String × Expr) k => k.Makes j.base m.2)
    (fun _ _ _ hk he => he.mono hk) rfl fun property _ k hk => hmember property k hk).mono
    fun ms k ⟨hk, hms⟩ => ?_)
  rw [← List.map_eq_flatMap] at hk
  exact orderly_buildMembers hk.declared hms (Job.finishes_declare hk)

/-- Built-in and drafted emitters follow orderly recipes through the anatomy of their values. -/
theorem Emitter.orderly {e : Emitter} (he : e.IsOwn) (hv : j.owned v) :
    (e.recipe j.options v j.base).Orderly j {} (j.Finishes (e.anatomy j.answer v)) := by
  have hempty (b : Builtin) (hb : ∀ o, b.objectAnatomy j.answer o = {}) (hl : b ≠ .list) :
      (Emitter.builtin b).anatomy j.answer v = {} := by
    cases v with
    | object o => exact hb o
    | list items => cases b <;> simp_all [Emitter.anatomy]
    | _ => rfl
  cases e with
  | builtin b =>
    cases b with
    | primitive p => exact hempty (.primitive p) (fun _ => rfl) nofun ▸ orderly_primitive p hv
    | construction c =>
      exact hempty (.construction c) (fun _ => rfl) nofun ▸ orderly_construction c hv
    | initializer i => exact orderly_initializer i hv
    | template t => exact orderly_template t hv
    | animation a => exact orderly_animation a hv
    | solidColorBrush => exact orderly_solidColorBrush hv
    | linearGradientBrush => exact orderly_linearGradientBrush hv
    | resourceReference =>
      exact hempty .resourceReference (fun _ => rfl) nofun ▸ orderly_resourceReference hv
    | style => exact orderly_style hv
    | fontFamily => exact hempty .fontFamily (fun _ => rfl) nofun ▸ orderly_fontFamily hv
    | fontWeight => exact hempty .fontWeight (fun _ => rfl) nofun ▸ orderly_fontWeight hv
    | list => exact orderly_list hv
  | drafted b => exact orderly_drafted b hv
  | custom typeName program => exact he.elim

end ResourceCode
