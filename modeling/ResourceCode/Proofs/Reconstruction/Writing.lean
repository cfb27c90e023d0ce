import ResourceCode.Proofs.Reconstruction.Build
import Mathlib.Data.List.Perm.Subperm

/-!
What is to be rebuilt of a value, and recipes that succeed at it. A value has a tree when it is made of literals,
enumeration members, lists, view-model locators and objects of described types, and comes to an end: the tree is finite,
so no such value contains itself. The tree does not depend on which copies the reads give.

The trees of the values around a value that is being emitted grow outwards, so they are all different and none of them
is met again inside, and there are no more of them than values in the heap and in the value at the root. This is why
nothing that comes to an end is taken for a cycle, and why the depth is enough.

When the values inside a value are emitted with code that builds their trees, following the recipe of a list or of a
blueprint succeeds as well, and what it writes builds the tree of the value.
-/

namespace ResourceCode

section

/-- A type that no built-in emitter takes, and the only one of its name. -/
structure Descriptor.IsDescribed (types : TypeName → Descriptor) (d : Descriptor) : Prop where
  only : types d.name = d
  notBuiltin : Registry.builtin.find? d.name = none

inductive Rebuilds (heap : Heap) (types : TypeName → Descriptor) : Value → Tree → Prop
  | literal (l) : Rebuilds heap types (.literal l) (.literal l)
  | member {type name} : type.IsDescribed types → type.isEnumeration = true →
      Rebuilds heap types (.member type name) (.constant (.named (Text.afterLastDot type.name.full)) name)
  | locator {o} : o.type.IsDescribed types → o.type.isEnumeration = false →
      o.type.derivesLocator = true →
      Rebuilds heap types (.object o) (.object (.named (Text.afterLastDot o.type.name.full)) [])
  | object {o} (pieces : List Piece) : o.type.IsDescribed types → o.type.isEnumeration = false →
      o.type.derivesLocator = false → pieces.map Piece.member = Blueprint.carriedOf o.type →
      (pieces.map Piece.member).Nodup → (∀ p ∈ pieces, Text.IsPlain p.member) →
      (∀ p ∈ pieces, (heap.cell o).read o.type p.member = .ok p.value) →
      (∀ p ∈ pieces, Rebuilds heap types p.value p.tree) →
      Rebuilds heap types (.object o)
        (.object (.named (Text.afterLastDot o.type.name.full))
          (pieces.map fun p => (p.member, p.tree)))
  | list (items : List (Value × Tree)) : (∀ x ∈ items, Rebuilds heap types x.1 x.2) →
      Rebuilds heap types (.list (items.map (·.1))) (.list (items.map (·.2)))

variable {heap : Heap} {types : TypeName → Descriptor} {v v' : Value} {t t' : Tree}

/-- A copy has the tree of the original. -/
theorem Rebuilds.copied (h : Rebuilds heap types v t) (n : Nat) :
    Rebuilds heap types (v.copied n) t := by
  induction h with
  | literal l => exact .literal l
  | member hd he => exact .member hd he
  | @locator o hd he hl =>
    exact .locator (o := { o with copy := o.copy.map fun _ => n }) hd he hl
  | @object o pieces hd he hl hcarried hn hplain hread htrees _ =>
    exact .object (o := { o with copy := o.copy.map fun _ => n }) pieces hd he hl hcarried hn hplain
      hread htrees
  | list items _ ih =>
    have hitems := Rebuilds.list (items.map fun x => (x.1.copied n, x.2)) (by
      intro x hx
      obtain ⟨y, hy, rfl⟩ := List.mem_map.mp hx
      exact ih y hy)
    rw [List.map_map, List.map_map] at hitems
    rw [Value.copied, Value.copiedAll_eq_map, List.map_map]
    exact hitems

/-- A successful read gives a copy of what is in the cell. -/
theorem Heap.get_of_read (types : TypeName → Descriptor) {o : Object} {property : String} {x : Value}
    (h : (heap.cell o).read o.type property = .ok x) (reading : Nat) :
    ∃ y, heap.get o property reading = .ok y ∧ y.bare = x.bare ∧
      ∀ t, Rebuilds heap types x t → Rebuilds heap types y t := by
  obtain ⟨y, hget, rfl | ⟨n, rfl⟩⟩ := heap.exists_get h reading
  · exact ⟨y, hget, rfl, fun t ht => ht⟩
  · exact ⟨x.copied n, hget, x.bare_copied n, fun t ht => ht.copied n⟩

/-- A value has one tree only, whatever copy it is. -/
theorem Rebuilds.unique (h : Rebuilds heap types v t) (h' : Rebuilds heap types v' t')
    (hbare : v.bare = v'.bare) : t = t' := by
  induction h generalizing v' t' with
  | literal l =>
    cases h' <;> cases hbare
    rfl
  | member hd he =>
    cases h' <;> cases hbare
    rfl
  | @locator o hd he hl =>
    cases h' with
    | @locator o' =>
      rw [(Value.object_of_bare hbare).2]
    | @object o' pieces hd' he' hl' =>
      rw [(Value.object_of_bare hbare).2, hl'] at hl
      cases hl
    | _ => cases hbare
  | @object o pieces hd he hl hcarried hn hplain hread htrees ih =>
    cases h' with
    | @locator o' hd' he' hl' =>
      rw [(Value.object_of_bare hbare).2, hl'] at hl
      cases hl
    | @object o' pieces' hd' he' hl' hcarried' hn' hplain' hread' htrees' =>
      obtain ⟨hcell, htype⟩ := Value.object_of_bare hbare
      have hnames : pieces.map Piece.member = pieces'.map Piece.member := by
        rw [hcarried, hcarried', htype]
      have hsame : heap.cell o = heap.cell o' := by rw [Heap.cell, Heap.cell, hcell]
      have hmembers : pieces.map (fun p => (p.member, p.tree)) =
          pieces'.map (fun p => (p.member, p.tree)) := by
        refine map_eq_of_map_eq hnames fun p hp q hq hpq => ?_
        have hp' := hread p hp
        rw [hsame, htype, hpq, hread' q hq] at hp'
        rw [ih p hp (htrees' q hq) (congrArg Value.bare (Except.ok.inj hp').symm), hpq]
      rw [hmembers, htype]
    | _ => cases hbare
  | list items hitems ih =>
    cases h' with
    | list items' hitems' =>
      simp only [Value.bare, Value.bareAll_eq_map, List.map_map] at hbare
      rw [map_eq_of_map_eq (Value.list.inj hbare) fun x hx y hy hxy => ih x hx (hitems' y hy) hxy]
    | _ => cases hbare

end

/-- What is known of the values around a value with a tree: they are all different, they come from the pool,
and their trees are larger. Every object in progress is one of them. -/
structure Trail (heap : Heap) (types : TypeName → Descriptor) (root : Value) (around : List Value)
    (inProgress : List Object) (v : Value) (t : Tree) : Prop where
  distinct : around.Nodup
  pool : ∀ u ∈ around, u ∈ heap.pool root
  larger : ∀ u ∈ around, ∃ v' t', v'.bare = u ∧ Rebuilds heap types v' t' ∧ sizeOf t < sizeOf t'
  progress : ∀ o ∈ inProgress, (Value.object o).bare ∈ around
  rebuilds : Rebuilds heap types v t
  here : v.bare ∈ heap.pool root

namespace Trail

variable {heap : Heap} {types : TypeName → Descriptor} {root v x : Value} {around : List Value}
  {inProgress : List Object} {t u : Tree}

/-- The trail begins at the root. -/
theorem start (h : Rebuilds heap types v t) : Trail heap types v [] [] v t :=
  ⟨List.nodup_nil, by simp, by simp, by simp, h, heap.root_mem_pool v⟩

/-- The value is none of those around it. -/
theorem not_mem (h : Trail heap types root around inProgress v t) : v.bare ∉ around := by
  intro hmem
  obtain ⟨v', t', hbare, hv', hlt⟩ := h.larger _ hmem
  have heq := h.rebuilds.unique hv' hbare.symm
  rw [heq] at hlt
  omega

theorem not_inProgress {o : Object}
    (h : Trail heap types root around inProgress (.object o) t) : o ∉ inProgress :=
  fun ho => h.not_mem (h.progress o ho)

/-- There are fewer values around a value than values there are. -/
theorem length_lt (h : Trail heap types root around inProgress v t) :
    around.length < (heap.pool root).length := by
  have hsub : (v.bare :: around).Subperm (heap.pool root) := by
    refine List.subperm_of_subset (List.nodup_cons.mpr ⟨h.not_mem, h.distinct⟩) fun u hu => ?_
    rcases List.mem_cons.mp hu with rfl | hu
    · exact h.here
    · exact h.pool u hu
  have hle := hsub.length_le
  rw [List.length_cons] at hle
  omega

/-- One value further in. -/
theorem inward (h : Trail heap types root around inProgress v t) {inProgress' : List Object}
    (hp : ∀ o ∈ inProgress', o ∈ inProgress ∨ v = .object o) (hx : Rebuilds heap types x u)
    (hpool : x.bare ∈ heap.pool root) (hlt : sizeOf u < sizeOf t) :
    Trail heap types root (v.bare :: around) inProgress' x u := by
  refine ⟨List.nodup_cons.mpr ⟨h.not_mem, h.distinct⟩, ?_, ?_, ?_, hx, hpool⟩
  · intro w hw
    rcases List.mem_cons.mp hw with rfl | hw
    · exact h.here
    · exact h.pool w hw
  · intro w hw
    rcases List.mem_cons.mp hw with rfl | hw
    · exact ⟨v, t, rfl, h.rebuilds, hlt⟩
    · obtain ⟨v', t', hbare, hv', hlt'⟩ := h.larger w hw
      exact ⟨v', t', hbare, hv', by omega⟩
  · intro o ho
    rcases hp o ho with ho | rfl
    · exact List.mem_cons_of_mem _ (h.progress o ho)
    · exact List.mem_cons_self

end Trail

/-- Success: the statements are added to the current method, the generator is as it should be, and `Q` holds
of the result and the statements. -/
def Workshop.Writes {α : Type} (w : Workshop) (clean : Generator → Prop)
    (Q : α → List Statement → Prop) (x : Option (Outcome α)) : Prop :=
  ∃ a w' statements, x = some (.ok a, w') ∧ w'.current.body = w.current.body ++ statements ∧
    clean w'.generator ∧ Q a statements

/-- Success is a conclusion without failure. -/
theorem Workshop.writes_iff {α : Type} {w : Workshop} {clean : Generator → Prop}
    {Q : α → List Statement → Prop} {x : Option (Outcome α)} :
    w.Writes clean Q x ↔ w.Concludes (fun g _ => clean g) Q (fun _ => False) x := by
  constructor
  · exact .inl
  · rintro (h | ⟨e, w', -, -, hfalse⟩)
    · exact h
    · exact hfalse.elim

namespace Recipe

variable {α β γ : Type} {emit : Emission} {run : Emitter → Emission} {scope : Scope}
  {clean : Generator → Prop} {w : Workshop} {Q : β → List Statement → Prop}

theorem writes_done {b : β} (hw : clean w.generator) (hQ : Q b []) :
    w.Writes clean Q ((done b).follow emit run scope w) :=
  Workshop.writes_iff.mpr (concludes_done hw hQ)

/-- A recipe succeeds when its first part does and what follows does whatever the part gave. -/
theorem writes_bind {recipe : Recipe α} {f : α → Recipe β} {P : α → List Statement → Prop}
    (hrecipe : w.Writes clean P (recipe.follow emit run scope w))
    (hf : ∀ a statements (w' : Workshop), P a statements → clean w'.generator →
      w'.Writes clean (fun b more => Q b (statements ++ more)) ((f a).follow emit run scope w')) :
    w.Writes clean Q ((recipe.bind f).follow emit run scope w) := by
  refine Workshop.writes_iff.mpr (concludes_bind (Workshop.writes_iff.mp hrecipe) ?_)
  exact fun a statements w' hP hw' => Workshop.writes_iff.mp (hf a statements w' hP hw')

theorem writes_nested {Q : Expr → List Statement → Prop} {v : Value} {base : String}
    (h : w.Writes clean Q (emit scope v base w)) :
    w.Writes clean Q ((nested v base).follow emit run scope w) :=
  Workshop.writes_iff.mpr (concludes_nested (Workshop.writes_iff.mp h))

theorem writes_get {o : Object} {property : String} {v : Value} (hw : clean w.generator)
    (hread : scope.heap.get o property w.generator.inProgress.length = .ok v) :
    w.Writes clean (fun x statements => x = v ∧ statements = [])
      ((get o property).follow emit run scope w) :=
  Workshop.writes_iff.mpr (concludes_get hw hread)

theorem writes_build {Q : Expr → List Statement → Prop} {name : String} {t : TypeRef}
    {args : List Expr} {more : List Statement} (hw : clean w.generator)
    (hQ : Q (.var name) (.declare name t (some (.new t args)) :: more)) :
    w.Writes clean Q ((build name t args more).follow emit run scope w) :=
  Workshop.writes_iff.mpr (concludes_build hw hQ)

/-- A recipe for each item, when each of them gives a child with the label of its item. -/
theorem writes_forEach {o : Options} {base : String} {f : α → Recipe γ} {result : Child → γ}
    (label : α → String × Tree) {items : List α} (hw : clean w.generator)
    (hstep : ∀ a ∈ items, ∀ w : Workshop, clean w.generator →
      w.Writes clean (fun x statements => ∃ c : Child, (c.member, c.tree) = label a ∧
        c.Sound o base ∧ x = result c ∧ statements = c.statements)
        ((f a).follow emit run scope w)) :
    w.Writes clean (fun xs statements => ∃ children : List Child,
      children.map (fun c => (c.member, c.tree)) = items.map label ∧
        (∀ c ∈ children, c.Sound o base) ∧ xs = children.map result ∧
        statements = children.flatMap Child.statements)
      ((forEach f items).follow emit run scope w) := by
  refine Workshop.writes_iff.mpr (concludes_forEach label (fun c : Child => (c.member, c.tree))
    (Child.Sound o base) result Child.statements hw fun a ha w hw => ?_)
  exact Workshop.writes_iff.mp (hstep a ha w hw)

theorem forEach_map (f : β → Recipe γ) (g : α → β) (items : List α) :
    forEach f (items.map g) = forEach (f ∘ g) items := by
  induction items with
  | nil => rfl
  | cons a rest ih => simp only [List.map_cons, forEach, ih, Function.comp_apply]

end Recipe

/-- The emission succeeds in every clean workshop, and what it writes builds the tree. -/
def Emission.Delivers (emission : Emission) (clean : Generator → Prop) (scope : Scope) (v : Value)
    (base : String) (t : Tree) : Prop :=
  ∀ w : Workshop, clean w.generator →
    w.Writes clean (fun e statements => Builds statements e base t) (emission scope v base w)

section

variable {emit : Emission} {run : Emitter → Emission} {scope : Scope}
  {clean : Generator → Prop} {w : Workshop} {o : Options} {base : String}

/-- Emitted under its own name, a member is sound. -/
theorem Emission.Delivers.child {v : Value} {member : String} {t : Tree}
    (h : emit.Delivers clean scope v (o.nestedName base member) t) (hw : clean w.generator) :
    w.Writes clean (fun e statements => ∃ c : Child, (c.member, c.tree) = (member, t) ∧
      c.Sound o base ∧ e = c.expr ∧ statements = c.statements)
      ((Recipe.nested v (o.nestedName base member)).follow emit run scope w) := by
  refine Recipe.writes_nested ?_
  obtain ⟨e, w', statements, hemit, hbody, hclean, hbuilds⟩ := h w hw
  exact ⟨e, w', statements, hemit, hbody, hclean, ⟨member, statements, e, t⟩, rfl, hbuilds, rfl, rfl⟩

theorem Child.member_of_label {α : Type} {label : α → String × Tree} {items : List α}
    {children : List Child}
    (h : children.map (fun c => (c.member, c.tree)) = items.map label) :
    children.map Child.member = items.map fun a => (label a).1 := by
  have hfst := congrArg (List.map Prod.fst) h
  rwa [List.map_map, List.map_map] at hfst

theorem Child.tree_of_label {α : Type} {label : α → String × Tree} {items : List α}
    {children : List Child}
    (h : children.map (fun c => (c.member, c.tree)) = items.map label) :
    children.map Child.tree = items.map fun a => (label a).2 := by
  have hsnd := congrArg (List.map Prod.snd) h
  rwa [List.map_map, List.map_map] at hsnd

theorem nodup_positions {α : Type} (items : List α) :
    (items.zipIdx.map fun x => toString x.2).Nodup := by
  have hpositions : (items.zipIdx.map Prod.snd).Nodup := by
    rw [List.zipIdx_map_snd]
    exact List.nodup_range'
  have hmap := hpositions.map fun i j => Text.toString_injective (i := i) (j := j)
  rwa [List.map_map] at hmap

/-- The recipe of a list writes code that builds the list, when each item is emitted with code that builds the
item. -/
theorem Recipe.writes_list (ho : o.separator = "_") {items : List (Value × Tree)}
    (hitems : ∀ x ∈ items, ∀ name, emit.Delivers clean scope x.1 name x.2)
    (hw : clean w.generator) :
    w.Writes clean (fun e statements => Builds statements e base (.list (items.map (·.2))))
      ((Recipe.list o (.list (items.map (·.1))) base).follow emit run scope w) := by
  have hchildren : w.Writes clean _ ((forEach (listItem o base ∘ Prod.map Prod.fst id)
      items.zipIdx).follow emit run scope w) :=
    writes_forEach (fun x => (toString x.2, x.1.2)) hw fun x hx w' hw' => by
      have hmem : x.1 ∈ items := List.fst_mem_of_mem_zipIdx hx
      exact (hitems x.1 hmem _).child hw'
  rw [← forEach_map, ← List.zipIdx_map] at hchildren
  refine writes_bind hchildren fun exprs statements w' hQ hw' => ?_
  obtain ⟨children, hlabels, hsound, rfl, rfl⟩ := hQ
  have hmembers := Child.member_of_label hlabels
  have htrees : children.map Child.tree = items.map (·.2) := by
    rw [Child.tree_of_label hlabels]
    have hfst := congrArg (List.map Prod.snd) (items.zipIdx_map_fst 0)
    rwa [List.map_map] at hfst
  have hplain : ∀ c ∈ children, Text.IsPlain c.member := by
    intro c hc
    have hmem : c.member ∈ items.zipIdx.map fun x => toString x.2 :=
      hmembers ▸ List.mem_map_of_mem hc
    obtain ⟨x, -, hx⟩ := List.mem_map.mp hmem
    exact hx ▸ Text.isPlain_toString x.2
  have hn : (children.map Child.member).Nodup := hmembers ▸ nodup_positions items
  refine writes_build hw' ?_
  have hbuilds := builds_list ho hplain hn hsound
  rw [htrees] at hbuilds
  rw [List.map_map]
  exact hbuilds

namespace Blueprint

/-- What a blueprint carries over are the members of the pieces, in one order or the other. -/
theorem exists_pieces {d : Descriptor} {pieces : List Piece}
    (hcarried : pieces.map Piece.member = carriedOf d) (order : PropertyOrder) :
    ∃ sorted : List Piece, sorted.Perm pieces ∧
      sorted.map Piece.member = (ofDescriptor d order).carried := by
  refine exists_perm_of_map_perm ?_
  rw [hcarried]
  cases order with
  | declared => exact .refl _
  | name => exact (List.mergeSort_perm _ _).symm

/-- A member is read and emitted with code that builds its tree. -/
theorem writes_member {x : Object} {p : Piece}
    (hp : ∀ reading, ∃ y, scope.heap.get x p.member reading = .ok y ∧
      emit.Delivers clean scope y (o.nestedName base p.member) p.tree)
    (hw : clean w.generator) :
    w.Writes clean (fun m statements => ∃ c : Child, (c.member, c.tree) = (p.member, p.tree) ∧
      c.Sound o base ∧ m = (c.member, c.expr) ∧ statements = c.statements)
      ((member o x base p.member).follow emit run scope w) := by
  obtain ⟨y, hget, hdelivers⟩ := hp w.generator.inProgress.length
  refine Recipe.writes_bind (Recipe.writes_get hw hget) ?_
  rintro _ _ w₁ ⟨rfl, rfl⟩ hw₁
  refine Recipe.writes_bind (hdelivers.child hw₁) ?_
  rintro _ _ w₂ ⟨c, hlabel, hsound, rfl, rfl⟩ hw₂
  refine Recipe.writes_done hw₂ ⟨c, hlabel, hsound, ?_, by simp⟩
  rw [(Prod.mk.inj hlabel).1]

/-- The recipe of a blueprint builds the object when the emissions of its members deliver. -/
theorem writes_recipe (ho : o.separator = "_") {x : Object} {pieces : List Piece}
    (order : PropertyOrder) (hcarried : pieces.map Piece.member = carriedOf x.type)
    (hn : (pieces.map Piece.member).Nodup) (hplain : ∀ p ∈ pieces, Text.IsPlain p.member)
    (hmember : ∀ p ∈ pieces, ∀ reading, ∃ y, scope.heap.get x p.member reading = .ok y ∧
      emit.Delivers clean scope y (o.nestedName base p.member) p.tree)
    (hw : clean w.generator) :
    w.Writes clean (fun e statements => Builds statements e base
      (.object (.ofName x.type.name) (pieces.map fun p => (p.member, p.tree))))
      (((ofDescriptor x.type order).recipe o (.object x) base).follow emit run scope w) := by
  obtain ⟨sorted, hperm, hsorted⟩ := exists_pieces hcarried order
  have hchildren : w.Writes clean _
      ((Recipe.forEach (member o x base ∘ Piece.member) sorted).follow emit run scope w) :=
    Recipe.writes_forEach (fun p => (p.member, p.tree)) hw fun p hp w' hw' =>
      writes_member (hmember p (hperm.mem_iff.mp hp)) hw'
  rw [← Recipe.forEach_map, hsorted] at hchildren
  rw [recipe_object]
  refine Recipe.writes_bind hchildren ?_
  rintro _ _ w' ⟨children, hlabels, hsound, rfl, rfl⟩ hw'
  have hmembers := Child.member_of_label hlabels
  have hplain' : ∀ c ∈ children, Text.IsPlain c.member := by
    intro c hc
    have hmem : c.member ∈ sorted.map Piece.member := hmembers ▸ List.mem_map_of_mem hc
    obtain ⟨p, hp, hpc⟩ := List.mem_map.mp hmem
    exact hpc ▸ hplain p (hperm.mem_iff.mp hp)
  have hn' : (children.map Child.member).Nodup := by
    rw [hmembers]
    exact (hperm.map Piece.member).nodup_iff.mpr hn
  refine Recipe.writes_build hw' ?_
  rw [List.map_map, type_ofDescriptor]
  refine builds_object ho _ hplain' hn' hsound ?_
  rw [hlabels]
  exact hperm.map _

end Blueprint

end

end ResourceCode
