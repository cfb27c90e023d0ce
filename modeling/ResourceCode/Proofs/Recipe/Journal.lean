import ResourceCode.Proofs.Emission.Growth
import ResourceCode.Proofs.Recipe.Following
import Mathlib.Data.List.Forall2

/-!
What is written while a recipe is followed, entry by entry: the statements that the emitter adds itself, and between
them what the emissions it asks for have added to the current method. Nothing else changes the body of the method, so
it is the entries, one after another, that stand behind what the method said before.
-/

namespace ResourceCode

open Number (Single)

/-- The statements that the current method has gained. -/
def Workshop.added (w w' : Workshop) : List Statement :=
  w'.current.body.drop w.current.body.length

/-- What has been added to a method stands behind its earlier statements. -/
theorem Workshop.Grows.body {w w' : Workshop} (h : w.Grows w') :
    w'.current.body = w.current.body ++ w.added w' := by
  obtain ⟨statements, hcurrent⟩ := h.current
  simp [Workshop.added, hcurrent]

/-- An emitter adds a statement itself, or an emission that it has asked for comes to its end and has added some. What
is written into a factory is not added to the current method. -/
inductive Entry where
  | own (s : Statement)
  | nested (v : Value) (base : String) (result : Except EmitError Expr) (statements : List Statement)

namespace Entry

def statements : Entry → List Statement
  | own s => [s]
  | nested _ _ _ statements => statements

@[simp] theorem statements_own (s : Statement) : (own s).statements = [s] := rfl

def IsNested : Entry → Prop
  | own _ => False
  | nested .. => True

instance : DecidablePred IsNested
  | own _ => .isFalse id
  | nested .. => .isTrue trivial

end Entry

/-- A nested emission that has come to a result, with the statements it has added to the current method. -/
structure Product where
  value : Value
  base : String
  expr : Expr
  statements : List Statement

def Product.entry (p : Product) : Entry := .nested p.value p.base (.ok p.expr) p.statements

@[simp] theorem Product.statements_entry (p : Product) : p.entry.statements = p.statements := rfl

/-- What is emitted for a value that may be null, under the name of its local. -/
inductive Value.HasProduct (base : String) : Value → Option Product → Prop
  | null : HasProduct base .null none
  | emitted {v} {p : Product} : v.isNull = false → p.value = v → p.base = base →
      HasProduct base v (some p)

namespace Recipe

variable {α β : Type}

/-- The entries that are made while a recipe is followed. -/
def journal (emit : Emission) (run : Emitter → Emission) (scope : Scope) :
    Recipe α → Workshop → List Entry
  | .done _, _ => []
  | .fail _, _ => []
  | .push s next, w => .own s :: next.journal emit run scope (w.push s)
  | .read o property next, w =>
    (next (scope.heap.get o property w.generator.inProgress.length)).journal emit run scope w
  | .emit v base next, w =>
    (emit scope v base w).elim [] fun (r, w') =>
      .nested v base r (w.added w') :: (next r).journal emit run scope w'
  | .delegate type v base next, w =>
    match w.generator.registry.find? type with
    | some e =>
      (run e scope v base w).elim [] fun (r, w') =>
        .nested v base r (w.added w') :: (next r).journal emit run scope w'
    | none =>
      (next (.error (.unsupported v "no emitter is registered for this type"))).journal
        emit run scope w
  | .recorded key next, w => (next (scope.recorded? key)).journal emit run scope w
  | .factory stem content root next, w =>
    let name := w.target.freeName w.current.name stem
    (emit.inMethod (.factory name) scope content root w).elim [] fun (r, w') =>
      .nested content root r (w.added w') :: (next (r.map fun _ => name)).journal emit run scope w'

section

variable {emit : Emission} {run : Emitter → Emission} {scope : Scope} {w w' : Workshop}

/-- The entries are all that the current method gains. -/
theorem follow_body (hemit : emit.Steady) (hrun : ∀ e, (run e).Steady) {recipe : Recipe α}
    {r : Except EmitError α} (h : recipe.follow emit run scope w = some (r, w')) :
    w'.current.body =
      w.current.body ++ (recipe.journal emit run scope w).flatMap Entry.statements := by
  -- whatever is emitted inside, its statements are one entry in front of the rest
  have hnested {w u : Workshop} {entries : List Entry} {statements : List Statement}
      (hgrows : w.Grows u) (hstatements : statements = w.added u)
      (hu : w'.current.body = u.current.body ++ entries.flatMap Entry.statements) :
      w'.current.body = w.current.body ++ (statements ++ entries.flatMap Entry.statements) := by
    rw [hu, hgrows.body, hstatements, List.append_assoc]
  induction recipe generalizing w with
  | done a => cases h; simp [journal]
  | fail e => cases h; simp [journal]
  | push s next ih =>
    have hrest := ih (w := w.push s) h
    simpa [journal, Workshop.push, Entry.statements] using hrest
  | read o property next ih => exact ih _ h
  | emit v base next ih =>
    obtain ⟨⟨x, u⟩, hx, hnext⟩ := Option.bind_eq_some_iff.mp h
    simp only [journal, hx, Option.elim_some, List.flatMap_cons]
    exact hnested (hemit hx) rfl (ih x hnext)
  | delegate type v base next ih =>
    rw [follow] at h
    cases hfind : w.generator.registry.find? type with
    | some e =>
      rw [hfind] at h
      obtain ⟨⟨x, u⟩, hx, hnext⟩ := Option.bind_eq_some_iff.mp h
      simp only [journal, hfind, hx, Option.elim_some, List.flatMap_cons]
      exact hnested (hrun e hx) rfl (ih x hnext)
    | none =>
      rw [hfind] at h
      simp only [journal, hfind]
      exact ih _ h
  | recorded key next ih => exact ih _ h
  | factory stem content root next ih =>
    obtain ⟨⟨x, u⟩, hx, hnext⟩ := Option.bind_eq_some_iff.mp h
    simp only [journal, hx, Option.elim_some, List.flatMap_cons]
    exact hnested (hemit.inMethod _ hx).1 rfl (ih _ hnext)

theorem IsReading.journal_eq {r : Recipe α} (hr : r.IsReading) :
    r.journal emit run scope w = [] := by
  induction r with
  | done a => rfl
  | fail e => rfl
  | read o property next ih => exact ih _ (hr _)
  | _ => exact hr.elim

/-- Of two recipes, the second one is gone through when the first one has come to a result. -/
theorem journal_bind (recipe : Recipe α) (f : α → Recipe β) (w : Workshop) :
    (recipe.bind f).journal emit run scope w = recipe.journal emit run scope w ++
      match recipe.follow emit run scope w with
      | some (.ok a, w') => (f a).journal emit run scope w'
      | _ => [] := by
  induction recipe generalizing w with
  | done a => rfl
  | fail e => rfl
  | push s next ih => exact congrArg (Entry.own s :: ·) (ih (w.push s))
  | read o property next ih => exact ih _ w
  | emit v base next ih =>
    cases hx : emit scope v base w with
    | none => simp [bind, journal, follow, hx]
    | some x => simp [bind, journal, follow, hx, ih]
  | delegate type v base next ih =>
    cases hfind : w.generator.registry.find? type with
    | none => simp [bind, journal, follow, hfind, ih]
    | some e =>
      cases hx : run e scope v base w with
      | none => simp [bind, journal, follow, hfind, hx]
      | some x => simp [bind, journal, follow, hfind, hx, ih]
  | recorded key next ih => exact ih _ w
  | factory stem content root next ih =>
    cases hx : emit.inMethod (.factory (w.target.freeName w.current.name stem)) scope content root w with
    | none => simp [bind, journal, follow, hx]
    | some x => simp [bind, journal, follow, hx, ih]

end

open Generator (emitWithin runWithin emitWithin_steady runWithin_steady)

/-- The recipe comes to a result; on the way the entries are made, and the workshop becomes another one. Emitters run
at most `depth` deep. -/
structure Gives (depth : Nat) (scope : Scope) (recipe : Recipe α) (w : Workshop) (a : α)
    (entries : List Entry) (w' : Workshop) : Prop where
  follow : recipe.follow (emitWithin depth) (runWithin depth) scope w = some (.ok a, w')
  journal : recipe.journal (emitWithin depth) (runWithin depth) scope w = entries

namespace Gives

variable {depth : Nat} {scope : Scope} {w w' : Workshop} {entries : List Entry} {o : Object}
  {property base : String} {reading : Nat}

/-- Every read in a recipe is made with the same objects in progress. -/
theorem inProgress {r : Recipe α} {a : α} (h : r.Gives depth scope w a entries w') :
    w'.generator.inProgress = w.generator.inProgress :=
  (follow_grows (emitWithin_steady depth) (runWithin_steady depth) h.follow).inProgress

theorem of_done {a b : α} (h : (done a).Gives depth scope w b entries w') :
    b = a ∧ entries = [] ∧ w' = w := by
  obtain ⟨hfollow, hjournal⟩ := h
  cases hfollow
  exact ⟨rfl, hjournal.symm, rfl⟩

/-- What two recipes have given, one after the other, is what the first gave and then what the second gave. -/
theorem of_bind {r : Recipe α} {f : α → Recipe β} {b : β}
    (h : (r.bind f).Gives depth scope w b entries w') :
    ∃ a first u rest, r.Gives depth scope w a first u ∧ (f a).Gives depth scope u b rest w' ∧
      entries = first ++ rest := by
  obtain ⟨hfollow, hjournal⟩ := h
  rw [follow_bind] at hfollow
  rw [journal_bind] at hjournal
  obtain ⟨⟨x, u⟩, hx, hnext⟩ := Option.bind_eq_some_iff.mp hfollow
  rw [hx] at hjournal
  cases x with
  | error e => cases hnext
  | ok a => exact ⟨a, _, u, _, ⟨hx, rfl⟩, ⟨hnext, rfl⟩, hjournal.symm⟩

theorem of_reading {r : Recipe α} {a : α} (hr : r.IsReading)
    (h : r.Gives depth scope w a entries w') : entries = [] ∧ w' = w := by
  obtain ⟨hfollow, hjournal⟩ := h
  obtain ⟨x, hx⟩ := hr.follow_eq (emitWithin depth) (runWithin depth) scope w
  cases hx.symm.trans hfollow
  exact ⟨hjournal.symm.trans hr.journal_eq, rfl⟩

/-- Reading goes before, and leaves no trace. -/
theorem of_reading_bind {r : Recipe α} {f : α → Recipe β} {b : β} (hr : r.IsReading)
    (h : (r.bind f).Gives depth scope w b entries w') :
    ∃ a, r.Gives depth scope w a [] w ∧ (f a).Gives depth scope w b entries w' := by
  obtain ⟨a, first, u, rest, hfirst, hrest, rfl⟩ := h.of_bind
  obtain ⟨rfl, rfl⟩ := hfirst.of_reading hr
  exact ⟨a, hfirst, hrest⟩

/-- When one recipe after another fails, the first one has failed, or it has come to a result and the second one has
failed. -/
theorem of_bind_error {r : Recipe α} {f : α → Recipe β} {x : EmitError}
    (h : (r.bind f).follow (emitWithin depth) (runWithin depth) scope w = some (.error x, w')) :
    (r.follow (emitWithin depth) (runWithin depth) scope w = some (.error x, w') ∧
      (r.bind f).journal (emitWithin depth) (runWithin depth) scope w =
        r.journal (emitWithin depth) (runWithin depth) scope w) ∨
    ∃ a first u, r.Gives depth scope w a first u ∧
      (f a).follow (emitWithin depth) (runWithin depth) scope u = some (.error x, w') ∧
      (r.bind f).journal (emitWithin depth) (runWithin depth) scope w =
        first ++ (f a).journal (emitWithin depth) (runWithin depth) scope u := by
  rw [follow_bind] at h
  rw [journal_bind]
  obtain ⟨⟨y, u⟩, hy, hnext⟩ := Option.bind_eq_some_iff.mp h
  rw [hy]
  cases y with
  | error e =>
    cases hnext
    exact .inl ⟨rfl, List.append_nil _⟩
  | ok a => exact .inr ⟨a, _, u, ⟨hy, rfl⟩, hnext, rfl⟩

theorem of_asObject {v : Value} (h : (asObject v).Gives depth scope w o entries w') :
    v = .object o := by
  obtain ⟨hfollow, -⟩ := h
  cases v <;> cases hfollow
  rfl

theorem of_get {v : Value} (h : (Recipe.get o property).Gives depth scope w v entries w') :
    scope.heap.get o property w.generator.inProgress.length = .ok v := by
  obtain ⟨hfollow, -⟩ := h
  rw [Recipe.get, Recipe.follow] at hfollow
  cases hread : scope.heap.get o property w.generator.inProgress.length with
  | ok v' =>
    rw [hread] at hfollow
    cases hfollow
    rfl
  | error e =>
    rw [hread] at hfollow
    cases hfollow

theorem of_expect {expected : String} {x : Option α} {a : α}
    (h : (expect o property expected x).Gives depth scope w a entries w') : x = some a := by
  obtain ⟨hfollow, -⟩ := h
  cases x <;> cases hfollow
  rfl

theorem of_getSingle? {x : Option Single}
    (h : (getSingle? o property).Gives depth scope w x entries w') :
    ∃ v, scope.heap.get o property w.generator.inProgress.length = .ok v ∧ v.HasSingle x := by
  obtain ⟨v, hv, hrest⟩ := of_reading_bind (isReading_get o property) h
  refine ⟨v, hv.of_get, ?_⟩
  split at hrest
  · rename_i hnull
    obtain ⟨rfl, -, -⟩ := hrest.of_done
    exact Value.eq_null_of_isNull hnull ▸ .null
  · obtain ⟨d, hd, hdone⟩ := of_reading_bind (isReading_expect o property _ _) hrest
    obtain ⟨rfl, -, -⟩ := hdone.of_done
    exact .number hd.of_expect

theorem of_getSingle {x : Single} (h : (getSingle o property).Gives depth scope w x entries w') :
    ∃ v, scope.heap.get o property w.generator.inProgress.length = .ok v ∧ v.HasSingle (some x) := by
  obtain ⟨x', hx', hrest⟩ := of_reading_bind (isReading_getSingle? o property) h
  exact hrest.of_expect ▸ hx'.of_getSingle?

theorem of_getString? {s : Option String}
    (h : (getString? o property).Gives depth scope w s entries w') :
    scope.heap.get o property w.generator.inProgress.length = .ok (.ofString? s) := by
  obtain ⟨v, hv, hrest⟩ := of_reading_bind (isReading_get o property) h
  rw [hv.of_get]
  split at hrest
  · rename_i hnull
    obtain ⟨rfl, -, -⟩ := hrest.of_done
    rw [Value.eq_null_of_isNull hnull]
    rfl
  · obtain ⟨t, ht, hdone⟩ := of_reading_bind (isReading_expect o property _ _) hrest
    obtain ⟨rfl, -, -⟩ := hdone.of_done
    exact congrArg Except.ok (Value.eq_string_of_string? ht.of_expect)

theorem of_getString {s : String} (h : (getString o property).Gives depth scope w s entries w') :
    scope.heap.get o property w.generator.inProgress.length = .ok (.string s) := by
  obtain ⟨x, hx, hrest⟩ := of_reading_bind (isReading_getString? o property) h
  obtain rfl := hrest.of_expect
  exact hx.of_getString?

theorem of_getList {items : List Value}
    (h : (getList o property).Gives depth scope w items entries w') :
    ∃ v, scope.heap.get o property w.generator.inProgress.length = .ok v ∧ v.HasItems items := by
  obtain ⟨v, hv, hrest⟩ := of_reading_bind (isReading_get o property) h
  refine ⟨v, hv.of_get, ?_⟩
  split at hrest
  · rename_i hnull
    obtain ⟨rfl, -, -⟩ := hrest.of_done
    exact Value.eq_null_of_isNull hnull ▸ .null
  · exact Value.eq_list_of_list? hrest.of_expect ▸ .list items

/-- A value that is emitted is one entry: its product, with the statements that came of it. -/
theorem of_nested {v : Value} {e : Expr}
    (h : (Recipe.nested v base).Gives depth scope w e entries w') :
    entries = [(Product.mk v base e (w.added w')).entry] := by
  obtain ⟨hfollow, rfl⟩ := h
  obtain ⟨⟨x, u⟩, hx, hnext⟩ := Option.bind_eq_some_iff.mp hfollow
  cases x <;> cases hnext
  simp [Recipe.nested, Recipe.journal, hx, ofExcept, Product.entry]

/-- A property that may be empty gives one entry or none. -/
theorem of_emitted? {x : Option Expr}
    (h : (emitted? o property base).Gives depth scope w x entries w') :
    ∃ v p, scope.heap.get o property w.generator.inProgress.length = .ok v ∧ v.HasProduct base p ∧
      x = p.map Product.expr ∧ entries = p.toList.map Product.entry := by
  obtain ⟨v, hv, hrest⟩ := of_reading_bind (isReading_get o property) h
  split at hrest
  · rename_i hnull
    obtain ⟨rfl, rfl, -⟩ := hrest.of_done
    exact ⟨v, none, hv.of_get, Value.eq_null_of_isNull hnull ▸ .null, rfl, rfl⟩
  · rename_i hsome
    obtain ⟨e, first, u, rest, he, hdone, rfl⟩ := of_bind hrest
    obtain ⟨rfl, rfl, rfl⟩ := hdone.of_done
    obtain rfl := he.of_nested
    exact ⟨v, some ⟨v, base, e, w.added w'⟩, hv.of_get,
      .emitted (Bool.eq_false_iff.mpr hsome) rfl rfl, rfl, by simp⟩

theorem of_addAll {statements : List Statement} {u : Unit}
    (h : (addAll statements).Gives depth scope w u entries w') : entries = statements.map .own := by
  obtain ⟨hfollow, rfl⟩ := h
  clear hfollow
  induction statements generalizing w with
  | nil => rfl
  | cons s rest ih => exact congrArg (Entry.own s :: ·) ih

theorem of_build {t : TypeRef} {args : List Expr} {more : List Statement} {e : Expr}
    (h : (build base t args more).Gives depth scope w e entries w') :
    e = .var base ∧ entries = (.declare base t (some (.new t args)) :: more).map .own := by
  have hbuild : build base t args more =
      (addAll (.declare base t (some (.new t args)) :: more)).bind fun _ => .done (.var base) := rfl
  rw [hbuild] at h
  obtain ⟨u, first, u', rest, hwrites, hdone, rfl⟩ := h.of_bind
  obtain ⟨rfl, rfl, rfl⟩ := hdone.of_done
  obtain rfl := hwrites.of_addAll
  exact ⟨rfl, List.append_nil _⟩

/-- A recipe for each item, when each of them leads to some products and a result that belongs to them. The reads of all
of them are made with the same objects in progress. -/
theorem of_forEach_products {δ : Type} {f : α → Recipe β} (P : α → δ → Prop) (result : δ → β)
    (products : δ → List Product) {items : List α} {bs : List β}
    (hstep : ∀ a w b entries w', w.generator.inProgress.length = reading →
      (f a).Gives depth scope w b entries w' →
      ∃ d, P a d ∧ b = result d ∧ entries = (products d).map Product.entry)
    (hw : w.generator.inProgress.length = reading)
    (h : (forEach f items).Gives depth scope w bs entries w') :
    ∃ ds, List.Forall₂ P items ds ∧ bs = ds.map result ∧
      entries = (ds.flatMap products).map Product.entry := by
  induction items generalizing w bs entries with
  | nil =>
    obtain ⟨rfl, rfl, -⟩ := h.of_done
    exact ⟨[], .nil, rfl, rfl⟩
  | cons a items ih =>
    obtain ⟨b, first, u, rest, hb, hrest, rfl⟩ := of_bind h
    obtain ⟨bs', more, u', last, hbs, hdone, rfl⟩ := of_bind hrest
    obtain ⟨rfl, rfl, rfl⟩ := hdone.of_done
    obtain ⟨d, hd, rfl, rfl⟩ := hstep a w b first u hw hb
    obtain ⟨ds, hds, rfl, rfl⟩ := ih (hb.inProgress ▸ hw) hbs
    exact ⟨d :: ds, .cons hd hds, rfl, by simp⟩

/-- The same, when each item leads to one product. -/
theorem of_forEach {δ : Type} {f : α → Recipe β} (P : α → δ → Prop) (result : δ → β)
    (product : δ → Product) {items : List α} {bs : List β}
    (hstep : ∀ a w b entries w', w.generator.inProgress.length = reading →
      (f a).Gives depth scope w b entries w' →
      ∃ d, P a d ∧ b = result d ∧ entries = [(product d).entry])
    (hw : w.generator.inProgress.length = reading)
    (h : (forEach f items).Gives depth scope w bs entries w') :
    ∃ ds, List.Forall₂ P items ds ∧ bs = ds.map result ∧
      entries = (ds.map product).map Product.entry := by
  obtain ⟨ds, hds, hbs, hentries⟩ := of_forEach_products P result (fun d => [product d]) hstep hw h
  exact ⟨ds, hds, hbs, by rw [hentries, List.map_eq_flatMap (f := product)]⟩

end Gives

end Recipe

/-- The entries that an emitter makes when it is run on a value. -/
def Emitter.journal (e : Emitter) : Nat → Scope → Value → String → Workshop → List Entry
  | 0, _, _, _, _ => []
  | depth + 1, scope, v, base, w =>
    (e.recipe w.generator.options v base).journal (Generator.emitWithin depth)
      (Generator.runWithin depth) scope w

/-- The new statements of the method are those of the journal, in order. -/
theorem Generator.runWithin_body {depth : Nat} {e : Emitter} {scope : Scope} {v : Value}
    {base : String} {w w' : Workshop} {r : Except EmitError Expr}
    (h : runWithin depth e scope v base w = some (r, w')) :
    w'.current.body =
      w.current.body ++ (e.journal depth scope v base w).flatMap Entry.statements := by
  cases depth with
  | zero => cases h
  | succ depth => exact Recipe.follow_body (emitWithin_steady depth) (runWithin_steady depth) h

end ResourceCode
