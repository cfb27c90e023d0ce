import ResourceCode.Proofs.Mirroring.Mirrors
import Mathlib.Data.List.Perm.Subperm

/-!
Emission of what is carried over. Where every read succeeds, emission comes to an end: with the code for the tree of
the value, or with an error about an object that leads back to itself. The objects in progress are exactly those on
the way from the root to the value. They are all different, even when copies are not told apart, so there are no more
of them than values that can be met, and between two of them stand only lists.
-/

namespace ResourceCode

open Relation (ReflTransGen TransGen)

/-- Values that no step inwards leads out of, while every read succeeds and no object leads to another copy of
itself. -/
structure Heap.Closed (heap : Heap) (types : Descriptor → Prop) (S : Value → Prop) : Prop where
  member : ∀ {type name}, S (.member type name) → type.IsApart types
  item : ∀ {items x}, S (.list items) → x ∈ items → S x
  object : ∀ {o}, S (.object o) → types o.type
  read : ∀ {o property}, S (.object o) → property ∈ Blueprint.carriedOf o.type → ∀ reading,
    ∃ x, heap.get o property reading = .ok x ∧ S x
  distinct : ∀ {o o'}, S (.object o) → TransGen heap.Leads (.object o) (.object o') →
    (Value.object o').bare = (Value.object o).bare → o' = o

/-- The values that have a tree are such values. -/
theorem Mirrors.closed (heap : Heap) (types : Descriptor → Prop) (order : PropertyOrder) :
    heap.Closed types fun v => ∃ t, Mirrors heap types order v t where
  member := by
    rintro type name ⟨t, ht⟩
    cases ht with
    | member hd => exact hd
  item := by
    rintro items x ⟨t, ht⟩ hx
    obtain ⟨u, hu, -⟩ := ht.leads (.item hx)
    exact ⟨u, hu⟩
  object := by
    rintro o ⟨t, ht⟩
    cases ht with
    | object pieces hm => exact hm
  read := by
    rintro o property ⟨t, ht⟩ hp reading
    have hget : ∃ x, heap.get o property reading = .ok x := by
      cases ht with
      | object pieces hm hcarried hread =>
        rw [← Blueprint.mem_carried_iff, ← hcarried] at hp
        obtain ⟨p, hmem, rfl⟩ := List.mem_map.mp hp
        obtain ⟨y, hget, -⟩ := heap.exists_get (hread p hmem) reading
        exact ⟨y, hget⟩
    obtain ⟨x, hget⟩ := hget
    obtain ⟨u, hu, -⟩ := ht.leads (.read hp hget)
    exact ⟨x, hget, u, hu⟩
  distinct := by
    rintro o o' ⟨t, ht⟩ hx hbare
    exact absurd hbare (ht.not_back hx)

/-- No more values can be met from a root on, and none of them is larger. -/
def Heap.bound (heap : Heap) (root : Value) : Nat := heap.size + root.size + 1

/-- On the way from a root to a value: the objects in progress lead to the value, and as many emitters as may still
run inside each other are enough for what can be met. -/
structure Descent (heap : Heap) (S : Value → Prop) (root : Value) (depth : Nat)
    (inProgress : List Object) (v : Value) : Prop where
  distinct : (inProgress.map fun o => (Value.object o).bare).Nodup
  pool : ∀ o ∈ inProgress, (Value.object o).bare ∈ heap.pool root
  around : ∀ o ∈ inProgress, S (.object o) ∧ TransGen heap.Leads (.object o) v
  here : v.bare ∈ heap.pool root
  value : S v
  depth : (heap.bound root - inProgress.length) * (heap.bound root + 1) + v.size ≤ depth

namespace Descent

variable {heap : Heap} {types : Descriptor → Prop} {S : Value → Prop} {root v x : Value}
  {depth : Nat} {inProgress : List Object} {o : Object}

/-- The descent begins with the bound on the depth and nothing in progress. -/
theorem start (hv : S v) : Descent heap S v (Generator.depthBound heap v) [] v := by
  refine ⟨List.nodup_nil, by simp, by simp, heap.root_mem_pool v, hv, ?_⟩
  have hone := v.one_le_size
  simp only [Heap.bound, Generator.depthBound, List.length_nil, Nat.sub_zero]
  generalize hn : heap.size + v.size = n
  have hsize : v.size ≤ n := by omega
  calc (n + 1) * (n + 1 + 1) + v.size
      ≤ (n + 2) * (n + 2) + (n + 2) := by
        refine Nat.add_le_add (Nat.mul_le_mul ?_ ?_) ?_ <;> omega
    _ ≤ (n + 2) ^ 2 + (n + 2) ^ 2 := by
        rw [← Nat.pow_two]
        exact Nat.add_le_add_left (Nat.le_self_pow (by decide) _) _
    _ ≤ 256 * (n + 2) ^ 2 := by omega

/-- There is always depth left for one more emitter. -/
theorem depth_pos (h : Descent heap S root depth inProgress v) : 0 < depth := by
  have hone := v.one_le_size
  have hdepth := h.depth
  omega

/-- Down to an item of a list. -/
theorem item {items : List Value} (h : Descent heap S root (depth + 1) inProgress (.list items))
    (hS : heap.Closed types S) (hx : x ∈ items) : Descent heap S root depth inProgress x := by
  refine ⟨h.distinct, h.pool, fun o ho => ?_, Heap.item_mem_pool h.here hx, hS.item h.value hx, ?_⟩
  · exact ⟨(h.around o ho).1, (h.around o ho).2.tail (.item hx)⟩
  · have hsize := Value.size_le_sizeAll hx
    have hdepth := h.depth
    rw [Value.size] at hdepth
    omega

/-- With an object that is not in progress, the objects are still all different. -/
theorem nodup_cons (h : Descent heap S root depth inProgress (.object o))
    (hS : heap.Closed types S) (ho : o ∉ inProgress) :
    ((o :: inProgress).map fun o => (Value.object o).bare).Nodup := by
  refine List.nodup_cons.mpr ⟨fun hmem => ho ?_, h.distinct⟩
  obtain ⟨o', ho', hbare⟩ := List.mem_map.mp hmem
  obtain ⟨hvalue, hleads⟩ := h.around o' ho'
  rw [hS.distinct hvalue hleads hbare.symm]
  exact ho'

/-- The objects in progress are fewer than the objects there are, as long as none is met again. -/
theorem length_lt (h : Descent heap S root depth inProgress (.object o))
    (hS : heap.Closed types S) (ho : o ∉ inProgress) : inProgress.length < heap.bound root := by
  have hsub : ((o :: inProgress).map fun o => (Value.object o).bare).Subperm (heap.pool root) := by
    refine List.subperm_of_subset (h.nodup_cons hS ho) fun u hu => ?_
    obtain ⟨o', ho', rfl⟩ := List.mem_map.mp hu
    rcases List.mem_cons.mp ho' with rfl | ho'
    · exact h.here
    · exact h.pool o' ho'
  have hle := hsub.length_le
  rw [List.length_map, List.length_cons] at hle
  exact Nat.lt_of_lt_of_le hle (heap.length_pool root)

/-- Down to what a property holds, with the object in progress. -/
theorem read {property : String} {reading : Nat}
    (h : Descent heap S root (depth + 1) inProgress (.object o)) (hS : heap.Closed types S)
    (ho : o ∉ inProgress) (hproperty : property ∈ Blueprint.carriedOf o.type)
    (hget : heap.get o property reading = .ok x) (hx : S x) :
    Descent heap S root depth (o :: inProgress) x := by
  have hstep : heap.Leads (.object o) x := .read hproperty hget
  have hpool : x.bare ∈ heap.pool root := by
    obtain ⟨y, hy, hbare⟩ := Heap.read_of_get hget
    rw [hbare]
    exact Heap.read_mem_pool hy
  refine ⟨h.nodup_cons hS ho, ?_, ?_, hpool, hx, ?_⟩
  · intro o' ho'
    rcases List.mem_cons.mp ho' with rfl | ho'
    · exact h.here
    · exact h.pool o' ho'
  · intro o' ho'
    rcases List.mem_cons.mp ho' with rfl | ho'
    · exact ⟨h.value, .single hstep⟩
    · exact ⟨(h.around o' ho').1, (h.around o' ho').2.tail hstep⟩
  · have hlength := h.length_lt hS ho
    have hsize : x.size ≤ heap.bound root := Heap.size_le_of_mem_pool hpool
    have hdepth := h.depth
    -- what the value may need at most is what one object fewer leaves over
    have hrest : heap.bound root - inProgress.length =
        (heap.bound root - (o :: inProgress).length) + 1 := by
      rw [List.length_cons]
      omega
    have hone : (Value.object o).size = 1 := by simp [Value.size]
    rw [hrest, Nat.succ_mul, hone] at hdepth
    omega

end Descent

/-- The generator has drafted emitters for the types only, and nothing has joined the class. -/
def Generator.Keeps (types : Descriptor → Prop) (options : Options) (inProgress : List Object)
    (target : Class) (g : Generator) (c : Class) : Prop :=
  g.Drafts types options inProgress ∧ c = target

/-- The error about an object, met from a value on, that leads back to itself. -/
def Heap.Cyclic (heap : Heap) (v : Value) (e : EmitError) : Prop :=
  ∃ o, heap.Circles v o ∧ e = .unsupported (.object o) "cyclic reference"

/-- A cycle that a part leads to is one that the whole leads to. -/
theorem Heap.Cyclic.of_leads {heap : Heap} {v x : Value} {e : EmitError} (h : heap.Cyclic x e)
    (hx : heap.Leads v x) : heap.Cyclic v e := by
  obtain ⟨o, ho, rfl⟩ := h
  exact ⟨o, ho.of_leads hx, rfl⟩

/-- The emission comes to an end: with the code for the tree of the value, or with an error about an object that
leads back to itself. -/
def Emission.Settles (emission : Emission) (scope : Scope) (types : Descriptor → Prop)
    (options : Options) (inProgress : List Object) (target : Class) (v : Value) (base : String) :
    Prop :=
  ∀ w : Workshop, Generator.Keeps types options inProgress target w.generator w.target →
    w.Concludes (Generator.Keeps types options inProgress target)
      (fun e statements => ∃ t, Mirrors scope.heap types options.order v t ∧
        t.code options base = ⟨statements, e⟩)
      (scope.heap.Cyclic v) (emission scope v base w)

section

variable {emission : Emission} {run : Emitter → Emission} {scope : Scope}
  {types : Descriptor → Prop} {options : Options} {inProgress : List Object} {target : Class}
  {v x : Value} {base : String} {w : Workshop}

/-- Having a value inside another one emitted. -/
theorem Emission.Settles.nested
    (h : emission.Settles scope types options inProgress target x base) (hx : scope.heap.Leads v x)
    (hw : Generator.Keeps types options inProgress target w.generator w.target) :
    w.Concludes (Generator.Keeps types options inProgress target)
      (fun e statements => ∃ t, Mirrors scope.heap types options.order x t ∧
        t.code options base = ⟨statements, e⟩)
      (scope.heap.Cyclic v) ((Recipe.nested x base).follow emission run scope w) :=
  Recipe.concludes_nested ((h w hw).mono (fun _ _ h => h) fun _ he => he.of_leads hx)

/-- An item comes to an end with the code for its tree, or with a cycle. -/
theorem Recipe.concludes_listItem {item : Value × Nat}
    (h : ∀ name, emission.Settles scope types options inProgress target item.1 name)
    (hx : scope.heap.Leads v item.1)
    (hw : Generator.Keeps types options inProgress target w.generator w.target) :
    w.Concludes (Generator.Keeps types options inProgress target)
      (fun e statements => ∃ y : (Value × Tree) × Nat, Prod.map Prod.fst id y = item ∧
        Mirrors scope.heap types options.order y.1.1 y.1.2 ∧
        e = (Tree.part options base (toString y.2) y.1.2).2.expr ∧
        statements = (Tree.part options base (toString y.2) y.1.2).2.statements)
      (scope.heap.Cyclic v) ((listItem options base item).follow emission run scope w) := by
  refine ((h _).nested hx hw).mono ?_ fun _ he => he
  rintro e statements ⟨t, ht, hcode⟩
  refine ⟨((item.1, t), item.2), rfl, ht, ?_, ?_⟩
  · rw [Tree.part, hcode]
  · rw [Tree.part, hcode]

/-- Following the recipe of a blueprint for one property. -/
theorem Blueprint.concludes_member {o : Object} {property : String}
    (hread : ∀ reading, ∃ y, scope.heap.get o property reading = .ok y ∧
      ∀ name, emission.Settles scope types options inProgress target y name)
    (hproperty : property ∈ carriedOf o.type)
    (hw : Generator.Keeps types options inProgress target w.generator w.target) :
    w.Concludes (Generator.Keeps types options inProgress target)
      (fun m statements => ∃ p : Piece, p.member = property ∧
        ((scope.heap.cell o).read o.type p.member = .ok p.value ∧
          Mirrors scope.heap types options.order p.value p.tree) ∧
        m = (p.member, (Tree.part options base p.member p.tree).2.expr) ∧
        statements = (Tree.part options base p.member p.tree).2.statements)
      (scope.heap.Cyclic (.object o)) ((member options o base property).follow emission run scope w) := by
  obtain ⟨y, hget, hsettles⟩ := hread w.generator.inProgress.length
  refine Recipe.concludes_bind (Recipe.concludes_get hw hget) ?_
  rintro _ _ w₁ ⟨rfl, rfl⟩ hw₁
  refine Recipe.concludes_bind ((hsettles _).nested (.read hproperty hget) hw₁) ?_
  rintro e statements w₂ ⟨t, ht, hcode⟩ hw₂
  obtain ⟨z, hz, hbare⟩ := Heap.read_of_get hget
  refine Recipe.concludes_done hw₂ ⟨⟨property, z, t⟩, rfl, ⟨hz, ht.of_bare hbare.symm⟩, ?_, ?_⟩
  · rw [Tree.part, hcode]
  · rw [Tree.part, hcode]
    simp

end

/-- Pairs that bear the positions of a list are that list, counted. -/
theorem eq_zipIdx_of_map {α β : Type} {f : α → β} {xs : List (α × Nat)} {ys : List β}
    (h : xs.map (Prod.map f id) = ys.zipIdx) :
    xs = (xs.map (·.1)).zipIdx ∧ (xs.map (·.1)).map f = ys := by
  have hfst := congrArg (List.map Prod.fst) h
  have hsnd := congrArg (List.map Prod.snd) h
  rw [List.map_map, List.zipIdx_map_fst] at hfst
  rw [List.map_map, List.zipIdx_map_snd] at hsnd
  have hlength : ys.length = xs.length := by simpa using (congrArg List.length h).symm
  refine ⟨?_, by rw [List.map_map]; exact hfst⟩
  rw [List.zipIdx_eq_zip_range', List.length_map, ← hlength, ← hsnd]
  exact List.zip_of_prod rfl rfl

namespace Generator

variable {scope : Scope} {types : Descriptor → Prop} {options : Options}
  {inProgress : List Object} {target : Class} {base : String} {depth : Nat} {run : Emitter → Emission}

/-- Leaving an object gives back what there was before it was entered. -/
theorem Keeps.left {o : Object} {w : Workshop}
    (hw : Keeps types options (o :: inProgress) target w.generator w.target) :
    Keeps types options inProgress target (w.left (.object o)).generator
      (w.left (.object o)).target :=
  ⟨Drafts.left w hw.1, hw.2⟩

/-- A literal is settled as itself. -/
theorem settles_literal (l : Literal) :
    (emitVia (runWithin (depth + 1))).Settles scope types options inProgress target (.literal l)
      base := by
  intro w hw
  exact Opening.concludes_literal hw.1.registry hw ⟨.literal l, .literal l, rfl⟩

/-- A member of an enumeration is settled as a field of its type. -/
theorem settles_member {d : Descriptor} (hd : d.IsApart types) (name : String) :
    (emitVia run).Settles scope types options inProgress target (.member d name) base := by
  intro w hw
  refine Opening.concludes_settled (opening_apart hw.1 hd name) hw ⟨_, .member hd, ?_⟩
  rw [← TypeRef.ofName_eq]
  rfl

/-- A list is settled when its items are, with one emitter less inside. -/
theorem settles_list {items : List Value}
    (hitems : ∀ x ∈ items, ∀ name, (emitVia (runWithin depth)).Settles scope types options
      inProgress target x name) :
    (emitVia (runWithin (depth + 1))).Settles scope types options inProgress target (.list items)
      base := by
  intro w hw
  refine Opening.concludes_list hw.1.registry ?_
  obtain rfl := hw.1.options
  refine Recipe.concludes_bind (Recipe.concludes_forEach id (Prod.map Prod.fst id) _ _ _ hw
    fun item hitem w' hw' => Recipe.concludes_listItem (hitems item.1 ?_) (.item ?_) hw') ?_
  · exact List.fst_mem_of_mem_zipIdx hitem
  · exact List.fst_mem_of_mem_zipIdx hitem
  rintro exprs statements w' ⟨parts, hlabels, hparts, rfl, rfl⟩ hw'
  rw [List.map_id] at hlabels
  obtain ⟨hcounted, hvalues⟩ := eq_zipIdx_of_map hlabels
  generalize parts.map (·.1) = pairs at hcounted hvalues
  subst hcounted hvalues
  refine Recipe.concludes_build hw' ⟨.list (pairs.map (·.2)), .list pairs fun x hx => ?_, ?_⟩
  · have hmem : x ∈ pairs.zipIdx.map (·.1) := by rwa [List.zipIdx_map_fst]
    obtain ⟨part, hpart, rfl⟩ := List.mem_map.mp hmem
    exact hparts part hpart
  · rw [Tree.code, Tree.itemCodes_eq_map, List.zipIdx_map, List.map_map]
    simp [Code.whole, List.flatMap_map, TypeRef.objectList, Statement.add]

/-- An object is settled when all that its carried properties may hold is settled, with the object in
progress. -/
theorem settles_object (ht : Draftable types) {o : Object} (ho : o ∉ inProgress)
    (hm : types o.type)
    (hread : ∀ property ∈ Blueprint.carriedOf o.type, ∀ reading, ∃ y,
      scope.heap.get o property reading = .ok y ∧ ∀ name,
        (emitVia (runWithin depth)).Settles scope types options (o :: inProgress) target y name) :
    (emitVia (runWithin (depth + 1))).Settles scope types options inProgress target (.object o)
      base := by
  intro w hw
  obtain ⟨g, hg, hopening⟩ := opening_drafted hw.1 ht ho hm
  refine Opening.concludes_runs hopening ?_ fun _ => Keeps.left
  obtain rfl := hg.options
  have hentered : Keeps types g.options (o :: inProgress) target (w.withGenerator g).generator
      (w.withGenerator g).target := ⟨hg, hw.2⟩
  simp only [runWithin, Emitter.recipe, Blueprint.recipe_object]
  refine Recipe.concludes_bind (Recipe.concludes_forEach id Piece.member _ _ _ hentered
    fun property hproperty w' hw' => Blueprint.concludes_member (hread property ?_) ?_ hw') ?_
  · exact Blueprint.mem_carried_iff.mp hproperty
  · exact Blueprint.mem_carried_iff.mp hproperty
  rintro members statements w' ⟨pieces, hlabels, hpieces, rfl, rfl⟩ hw'
  rw [List.map_id] at hlabels
  refine Recipe.concludes_build hw' ⟨_, .object pieces hm hlabels (fun p hp => (hpieces p hp).1)
    fun p hp => (hpieces p hp).2, ?_⟩
  rw [Tree.code, Tree.memberCodes_eq_map, List.map_map]
  simp [Code.whole, List.flatMap_map, TypeRef.ofName_eq, Statement.setMember]

/-- Every value in such a collection settles, when the objects in progress are those on the way to it. -/
theorem emitVia_settles {S : Value → Prop} {root v : Value} (ht : Draftable types)
    (hS : scope.heap.Closed types S) (hdescent : Descent scope.heap S root depth inProgress v)
    (base : String) :
    (emitVia (runWithin depth)).Settles scope types options inProgress target v base := by
  induction depth generalizing v inProgress base with
  | zero => exact absurd hdescent.depth_pos (Nat.lt_irrefl 0)
  | succ depth ih =>
    cases v with
    | literal l => exact settles_literal l
    | member d name => exact settles_member (hS.member hdescent.value) name
    | list items => exact settles_list fun x hx name => ih (hdescent.item hS hx) name
    | object o =>
      by_cases ho : o ∈ inProgress
      · intro w hw
        have hback : scope.heap.Circles (.object o) o := ⟨.refl, (hdescent.around o ho).2⟩
        exact Opening.concludes_failed (opening_inProgress hw.1 ho) hw ⟨o, hback, rfl⟩
      · refine settles_object ht ho (hS.object hdescent.value) fun property hproperty reading => ?_
        obtain ⟨y, hget, hy⟩ := hS.read hdescent.value hproperty reading
        exact ⟨y, hget, fun name => ih (hdescent.read hS ho hproperty hget hy) name⟩

/-- From a fresh generator on, the emission of such a value comes to an end. Either nothing on the way from the value
leads back to itself, and then the method goes on with the code for the tree of the value; or the error is about an
object that does. -/
theorem emit_settles {S : Value → Prop} {v : Value} (ht : Draftable types)
    (hS : scope.heap.Closed types S) (hv : S v) (options : Options) (base : String)
    (current : Method) (target : Class) :
    (∃ e w t statements, emit scope v base { generator := { options }, current, target } =
        some (.ok e, w) ∧ Mirrors scope.heap types options.order v t ∧
      t.code options base = ⟨statements, e⟩ ∧
      w.current = { current with body := current.body ++ statements } ∧ w.target = target) ∨
    ∃ x w, emit scope v base { generator := { options }, current, target } = some (.error x, w) ∧
      scope.heap.Cyclic v x := by
  have hsettles : (emitVia (runWithin (depthBound scope.heap v))).Settles scope types options []
      target v base := emitVia_settles ht hS (.start hv) base
  have hfresh : Keeps types options [] target ({ options } : Generator) target :=
    ⟨drafts_fresh types options, rfl⟩
  rcases hsettles { generator := { options }, current, target } hfresh with
    ⟨e, w, statements, hemit, hbody, hclean, t, ht, hcode⟩ | ⟨x, w, hemit, -, hcyclic⟩
  · refine .inl ⟨e, w, t, statements, hemit, ht, hcode, ?_, hclean.2⟩
    obtain ⟨more, hmore⟩ := (emit_grows hemit).current
    rw [hmore] at hbody
    rw [hmore, List.append_cancel_left hbody]
  · exact .inr ⟨x, w, hemit, hcyclic⟩

/-- A fresh generator writes the code for the tree of a value, if it has one. -/
theorem emit_mirrors (scope : Scope) (ht : Draftable types) (options : Options) {v : Value} {t : Tree}
    (h : Mirrors scope.heap types options.order v t) (base : String) (current : Method)
    (target : Class) :
    ∃ w, emit scope v base { generator := { options }, current, target } =
        some (.ok (t.code options base).expr, w) ∧
      w.current = { current with body := current.body ++ (t.code options base).statements } ∧
      w.target = target := by
  have hclosed := Mirrors.closed scope.heap types options.order
  rcases emit_settles ht hclosed ⟨t, h⟩ options base current target with
    ⟨e, w, u, statements, hemit, hu, hcode, hcurrent, htarget⟩ | ⟨x, w, -, o, ho, -⟩
  · obtain rfl := h.unique hu
    rw [hcode]
    exact ⟨w, hemit, hcurrent, htarget⟩
  · exact absurd ho (h.not_circles o)

end Generator

end ResourceCode
