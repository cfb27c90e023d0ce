import ResourceCode.Proofs.Reconstruction.Writing

/-!
Reconstruction. For a value with a tree a fresh generator always succeeds, and when the code that it writes is
run, the expression that it gives evaluates to the tree: to fresh objects with the tags, members and items of
the value. The proof goes inwards along the trail of the value, with an emitter drafted for a type or already
registered for it.
-/

namespace ResourceCode

/-- A type that emitters are drafted for. -/
structure Descriptor.IsMirrored (types : TypeName → Descriptor) (d : Descriptor) : Prop where
  described : d.IsDescribed types
  notEnumeration : d.isEnumeration = false
  notLocator : d.derivesLocator = false

/-- Known options and objects in progress, and emitters drafted for described types only. -/
structure Generator.Clean (types : TypeName → Descriptor) (options : Options)
    (inProgress : List Object) (g : Generator) : Prop where
  options : g.options = options
  inProgress : g.inProgress = inProgress
  registry : g.registry.Within (Descriptor.IsMirrored types) g.options.order

variable {types : TypeName → Descriptor} {options : Options} {inProgress : List Object}

namespace Generator

variable {g : Generator} {d : Descriptor}

theorem draftable_mirrored (types : TypeName → Descriptor) :
    Draftable (Descriptor.IsMirrored types) where
  notBuiltin hd := hd.described.notBuiltin
  notEnumeration hd := hd.notEnumeration
  notLocator hd := hd.notLocator
  unique hd hd' hname := by rw [← hd.described.only, hname, hd'.described.only]

/-- A described type that none is drafted for. -/
theorem isApart_of_described (hd : d.IsDescribed types) (hm : ¬ d.IsMirrored types) :
    d.IsApart (Descriptor.IsMirrored types) := by
  refine ⟨hd.notBuiltin, fun hd' hname => hm ?_⟩
  rw [← hd.only, ← hname, hd'.described.only]
  exact hd'

theorem Clean.drafts (hg : g.Clean types options inProgress) :
    g.Drafts (Descriptor.IsMirrored types) options inProgress :=
  ⟨hg.options, hg.inProgress, hg.registry⟩

theorem Drafts.clean (hg : g.Drafts (Descriptor.IsMirrored types) options inProgress) :
    g.Clean types options inProgress :=
  ⟨hg.options, hg.inProgress, hg.registry⟩

theorem opening_member (hg : g.Clean types options inProgress) (hd : d.IsDescribed types)
    (he : d.isEnumeration = true) (name : String) :
    g.opening (.member d name) = .settled (.ok (.field (.type (.ofName d.name)) name)) := by
  refine opening_apart hg.drafts (isApart_of_described hd fun hm => ?_) name
  rw [hm.notEnumeration] at he
  cases he

theorem opening_locator {o : Object} (hg : g.Clean types options inProgress)
    (ho : o ∉ inProgress) (hd : o.type.IsDescribed types) (he : o.type.isEnumeration = false)
    (hl : o.type.derivesLocator = true) :
    g.opening (.object o) = .settled (.ok (.new (.ofName o.type.name) [])) := by
  have hnone : g.registry.find? o.type.name = none := by
    refine hg.drafts.find?_eq_none (isApart_of_described hd fun hm => ?_)
    rw [hm.notLocator] at hl
    cases hl
  simp [opening, isInProgress, handling, locator, Value.typeName?, hg.inProgress, ho, hnone, he, hl]

/-- An object of a mirrored type is emitted by its blueprint. -/
theorem opening_object {o : Object} (hg : g.Clean types options inProgress)
    (ho : o ∉ inProgress) (hm : o.type.IsMirrored types) :
    ∃ g' : Generator, g'.Clean types options (o :: inProgress) ∧
      g.opening (.object o) = .runs (.drafted (.ofDescriptor o.type options.order)) g' := by
  obtain ⟨g', hg', hopening⟩ := opening_drafted hg.drafts (draftable_mirrored types) ho hm
  exact ⟨g', hg'.clean, hopening⟩

end Generator

section

variable {clean clean' : Generator → Prop} {Q : Expr → List Statement → Prop} {run : Emitter → Emission}
  {scope : Scope} {v : Value} {base : String} {w : Workshop}

theorem Opening.writes_settled {e : Expr} (h : w.generator.opening v = .settled (.ok e))
    (hw : clean w.generator) (hQ : Q e []) :
    w.Writes clean Q (Generator.emitVia run scope v base w) :=
  Workshop.writes_iff.mpr (concludes_settled h hw hQ)

theorem Opening.writes_runs {e : Emitter} {g : Generator} (h : w.generator.opening v = .runs e g)
    (hrun : (w.withGenerator g).Writes clean' Q (run e scope v base (w.withGenerator g)))
    (hleft : ∀ w' : Workshop, clean' w'.generator → clean (w'.left v).generator) :
    w.Writes clean Q (Generator.emitVia run scope v base w) :=
  Workshop.writes_iff.mpr (concludes_runs h (Workshop.writes_iff.mp hrun) hleft)

end

namespace Generator

variable {scope : Scope} {base : String} {depth : Nat} {run : Emitter → Emission}

theorem Clean.left {o : Object} (w : Workshop)
    (hw : w.generator.Clean types options (o :: inProgress)) :
    (w.left (.object o)).generator.Clean types options inProgress :=
  (Drafts.left w hw.drafts).clean

/-- A literal delivers itself. -/
theorem delivers_literal (l : Literal) :
    (emitVia (runWithin (depth + 1))).Delivers (Clean types options inProgress) scope (.literal l)
      base (.literal l) := by
  intro w hw
  exact Workshop.writes_iff.mpr (Opening.concludes_literal hw.registry hw (builds_literal l base))

/-- A member of an enumeration delivers a constant of its type. -/
theorem delivers_member {d : Descriptor} (hd : d.IsDescribed types) (he : d.isEnumeration = true)
    (name : String) :
    (emitVia run).Delivers (Clean types options inProgress) scope (.member d name) base
      (.constant (.ofName d.name) name) := by
  intro w hw
  exact Opening.writes_settled (opening_member hw hd he name) hw (builds_constant _ _ base)

/-- A locator delivers an object without members. -/
theorem delivers_locator {o : Object} (ho : o ∉ inProgress) (hd : o.type.IsDescribed types)
    (he : o.type.isEnumeration = false) (hl : o.type.derivesLocator = true) :
    (emitVia run).Delivers (Clean types options inProgress) scope (.object o) base
      (.object (.ofName o.type.name) []) := by
  intro w hw
  exact Opening.writes_settled (opening_locator hw ho hd he hl) hw (builds_new _ base)

/-- A list delivers its items when each of them is delivered with one emitter less inside. -/
theorem delivers_list (hs : options.separator = "_") {items : List (Value × Tree)}
    (hitems : ∀ x ∈ items, ∀ name, (emitVia (runWithin depth)).Delivers
      (Clean types options inProgress) scope x.1 name x.2) :
    (emitVia (runWithin (depth + 1))).Delivers (Clean types options inProgress) scope
      (.list (items.map (·.1))) base (.list (items.map (·.2))) := by
  intro w hw
  refine Workshop.writes_iff.mpr (Opening.concludes_list hw.registry (Workshop.writes_iff.mp ?_))
  obtain rfl := hw.options
  exact Recipe.writes_list hs hitems hw

/-- An object delivers its members when each of them is delivered with the object in progress. -/
theorem delivers_object (hs : options.separator = "_") {o : Object} {pieces : List Piece}
    (ho : o ∉ inProgress) (hm : o.type.IsMirrored types)
    (hcarried : pieces.map Piece.member = Blueprint.carriedOf o.type)
    (hn : (pieces.map Piece.member).Nodup) (hplain : ∀ p ∈ pieces, Text.IsPlain p.member)
    (hmember : ∀ p ∈ pieces, ∀ reading, ∃ y, scope.heap.get o p.member reading = .ok y ∧
      ∀ name, (emitVia (runWithin depth)).Delivers (Clean types options (o :: inProgress)) scope y
        name p.tree) :
    (emitVia (runWithin (depth + 1))).Delivers (Clean types options inProgress) scope (.object o)
      base (.object (.ofName o.type.name) (pieces.map fun p => (p.member, p.tree))) := by
  intro w hw
  obtain ⟨g, hg, hopening⟩ := opening_object hw ho hm
  refine Opening.writes_runs hopening ?_ Clean.left
  obtain rfl := hg.options
  refine Blueprint.writes_recipe hs g.options.order hcarried hn hplain (fun p hp reading => ?_) hg
  obtain ⟨y, hget, hdelivers⟩ := hmember p hp reading
  exact ⟨y, hget, hdelivers _⟩

/-- Every value with a tree is delivered, when as many emitters may run inside each other as there are values
that its trail can still pass. -/
theorem emitVia_delivers (hs : options.separator = "_") {root v : Value} {around : List Value}
    {t : Tree} (htrail : Trail scope.heap types root around inProgress v t)
    (hdepth : (scope.heap.pool root).length ≤ depth + around.length) (base : String) :
    (emitVia (runWithin depth)).Delivers (Clean types options inProgress) scope v base t := by
  induction depth generalizing v t around inProgress base with
  | zero =>
    -- without depth there would be as many values around as there are at all
    have hlt := htrail.length_lt
    omega
  | succ depth ih =>
    have hdepth' : (scope.heap.pool root).length ≤ depth + (v.bare :: around).length := by
      rw [List.length_cons]
      omega
    cases htrail.rebuilds with
    | literal l => exact delivers_literal l
    | member hd he =>
      rw [← TypeRef.ofName_eq]
      exact delivers_member hd he _
    | locator hd he hl =>
      rw [← TypeRef.ofName_eq]
      exact delivers_locator htrail.not_inProgress hd he hl
    | list items hitems =>
      refine delivers_list hs fun x hx name => ih (htrail.inward ?_ (hitems x hx) ?_ ?_) hdepth' name
      · exact fun o ho => .inl ho
      · exact Heap.item_mem_pool htrail.here (List.mem_map_of_mem hx)
      · exact Tree.sizeOf_item (List.mem_map_of_mem hx)
    | @object o pieces hd he hl hcarried hn hplain hread hpieces =>
      rw [← TypeRef.ofName_eq]
      refine delivers_object hs htrail.not_inProgress ⟨hd, he, hl⟩ hcarried hn hplain ?_
      intro p hp reading
      obtain ⟨y, hget, hbare, htree⟩ := Heap.get_of_read types (hread p hp) reading
      refine ⟨y, hget, fun name => ih (htrail.inward ?_ (htree _ (hpieces p hp)) ?_ ?_) hdepth' name⟩
      · intro o' ho'
        rcases List.mem_cons.mp ho' with rfl | ho'
        · exact .inr rfl
        · exact .inl ho'
      · rw [hbare]
        exact Heap.read_mem_pool (hread p hp)
      · exact Tree.sizeOf_member (List.mem_map_of_mem (f := fun p => (p.member, p.tree)) hp)

/-- The depth suffices for all values there are. -/
theorem length_pool_le_depthBound (heap : Heap) (v : Value) :
    (heap.pool v).length ≤ depthBound heap v := by
  have hlength := heap.length_pool v
  have hsquare : heap.size + v.size + 2 ≤ Nat.pow (heap.size + v.size + 2) 2 :=
    Nat.le_self_pow (by decide) _
  unfold depthBound
  omega

end Generator

/-- Run from any store, the statements come to an end, and then the expression evaluates to the tree: to fresh
objects, none of them met twice, while all objects that were there before are as they were. -/
def Reconstructs (statements : List Statement) (e : Expr) (t : Tree) : Prop :=
  ∀ s : Store, ∃ s₁ s₂ d as, s.run statements = some s₁ ∧ s₁.eval e = some (d, s₂) ∧
    Holds s₂.objects d t as ∧ as.Nodup ∧ (∀ a ∈ as, s.next ≤ a ∧ a < s₂.next) ∧
    ∀ a < s.next, s₂.objects a = s.objects a

/-- Code that builds a tree in any store reconstructs it from nothing. -/
theorem Builds.reconstructs {statements : List Statement} {e : Expr} {base : String} {t : Tree}
    (h : Builds statements e base t) : Reconstructs statements e t := by
  intro s
  obtain ⟨s₁, hrun, hkeeps, hready⟩ := h s
  obtain ⟨d, s₂, as, heval, hkeeps₂, hholds, hnodup, hrange⟩ := hready s₁ (.refl _ _ s₁)
  have hnext := hkeeps.next
  have hnext₂ := hkeeps₂.next
  refine ⟨s₁, s₂, d, as, hrun, heval, hholds, hnodup, fun a ha => ?_, fun a ha => ?_⟩
  · have := hrange a ha
    omega
  · rw [hkeeps₂.objects a (by omega), hkeeps.objects a ha]

namespace Generator

/-- A fresh generator emits every value that has a tree, and what it adds to the method reconstructs the tree. -/
theorem emit_reconstructs (scope : Scope) {v : Value} {t : Tree}
    (h : Rebuilds scope.heap types v t) (order : PropertyOrder) (base : String) (current : Method)
    (target : Class) :
    ∃ e w statements,
      emit scope v base { generator := { options := { order, separator := "_" } }, current, target } =
        some (.ok e, w) ∧
      w.current.body = current.body ++ statements ∧ Reconstructs statements e t := by
  have hclean : ({ options := { order, separator := "_" } } : Generator).Clean types
      { order, separator := "_" } [] := ⟨rfl, rfl, Registry.within_builtin _ _⟩
  have hdepth : (scope.heap.pool v).length ≤ depthBound scope.heap v + ([] : List Value).length :=
    length_pool_le_depthBound scope.heap v
  obtain ⟨e, w, statements, hemit, hbody, -, hbuilds⟩ :=
    emitVia_delivers rfl (Trail.start h) hdepth base
      { generator := { options := { order, separator := "_" } }, current, target } hclean
  exact ⟨e, w, statements, hemit, hbody, hbuilds.reconstructs⟩

/-- A type whose objects hold one object of another type and a list. -/
def trayType : Descriptor :=
  { name := ⟨"Demo.Tray"⟩, properties := [{ name := "Lid" }, { name := "Cups" }] }

def cupType : Descriptor := { name := ⟨"Demo.Cup"⟩, properties := [{ name := "Size" }] }

def trayTypes (type : TypeName) : Descriptor := if type = cupType.name then cupType else trayType

def tray : Object := { cell := 0, type := trayType }

def cup : Object := { cell := 1, type := cupType }

/-- The cup is met twice: it is the lid of the tray and also stands in its list. -/
def trayHeap : Heap :=
  ⟨#[{ values := [("Lid", .object cup), ("Cups", .list [.object cup, .string "spare"])] },
    { values := [("Size", .literal (.int32 3))] }]⟩

def cupTree : Tree := .object (.named "Cup") [("Size", .literal (.int32 3))]

def trayTree : Tree :=
  .object (.named "Tray")
    [("Lid", cupTree), ("Cups", .list [cupTree, .literal (.string "spare")])]

theorem rebuilds_cup : Rebuilds trayHeap trayTypes (.object cup) cupTree := by
  refine .object [⟨"Size", .literal (.int32 3), .literal (.int32 3)⟩] ⟨rfl, by decide +kernel⟩ rfl rfl
    rfl (by decide) ?_ ?_ ?_
  · intro p hp
    obtain rfl := List.mem_singleton.mp hp
    exact ⟨by decide, List.all_eq_true.mp (by decide)⟩
  · intro p hp
    obtain rfl := List.mem_singleton.mp hp
    rfl
  · intro p hp
    obtain rfl := List.mem_singleton.mp hp
    exact .literal _

theorem rebuilds_tray : Rebuilds trayHeap trayTypes (.object tray) trayTree := by
  have hcups : Rebuilds trayHeap trayTypes (.list [.object cup, .string "spare"])
      (.list [cupTree, .literal (.string "spare")]) := by
    refine .list [(.object cup, cupTree), (.string "spare", .literal (.string "spare"))] ?_
    intro x hx
    rcases List.mem_pair.mp hx with rfl | rfl
    · exact rebuilds_cup
    · exact .literal _
  refine .object
    [⟨"Lid", .object cup, cupTree⟩,
      ⟨"Cups", .list [.object cup, .string "spare"], .list [cupTree, .literal (.string "spare")]⟩]
    ⟨rfl, by decide +kernel⟩ rfl rfl rfl (by decide) ?_ ?_ ?_
  · intro p hp
    rcases List.mem_pair.mp hp with rfl | rfl
    · exact ⟨by decide, List.all_eq_true.mp (by decide)⟩
    · exact ⟨by decide, List.all_eq_true.mp (by decide)⟩
  · intro p hp
    rcases List.mem_pair.mp hp with rfl | rfl
    · rfl
    · rfl
  · intro p hp
    rcases List.mem_pair.mp hp with rfl | rfl
    · exact rebuilds_cup
    · exact hcups

theorem emit_reconstructs_tray :
    ∃ e w statements,
      emit { heap := trayHeap } (.object tray) "tray"
        { generator := { options := { order := .name, separator := "_" } }
          current := { name := "InitializeResources" }
          target := { name := "Dictionary1" } } = some (.ok e, w) ∧
      w.current.body = ([] : List Statement) ++ statements ∧ Reconstructs statements e trayTree :=
  emit_reconstructs { heap := trayHeap } rebuilds_tray .name "tray"
    { name := "InitializeResources" } { name := "Dictionary1" }

end Generator

end ResourceCode
