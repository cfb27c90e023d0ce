import ResourceCode.Code

/-!
What binds an expression to its method: a local or `this` that occurs in it, in any target or argument at any depth.
What is not bound has the same value wherever it is evaluated, whatever the evaluation makes of all the other forms.

A method is scoped when every variable of a statement has been declared by an earlier statement; a static one may not
mention `this` either.
-/

namespace ResourceCode

namespace Expr

/-- The target and the arguments of an expression. -/
def parts : Expr → List Expr
  | literal _ | var _ | this | type _ | typeOf _ | methodGroup _ => []
  | field target _ => [target]
  | new _ args | invoke _ args => args
  | call target _ args => target :: args

/-- What occurs in an expression is the expression itself or occurs in one of its parts. -/
inductive Occurs (inner : Expr) : Expr → Prop where
  | here : Occurs inner inner
  | inside {e part : Expr} (hpart : part ∈ e.parts) (h : Occurs inner part) : Occurs inner e

/-- The forms to which a method gives the value. -/
def isLocal : Expr → Bool
  | var _ | this => true
  | _ => false

theorem sizeOf_lt_of_mem_parts {e part : Expr} (h : part ∈ e.parts) : sizeOf part < sizeOf e := by
  cases e with
  | literal | var | this | type | typeOf | methodGroup => cases h
  | field target name =>
    cases List.mem_singleton.mp h
    simp only [field.sizeOf_spec]
    omega
  | new t args | invoke method args =>
    have hlt : sizeOf part < sizeOf args := List.sizeOf_lt_of_mem h
    simp only [new.sizeOf_spec, invoke.sizeOf_spec]
    omega
  | call target method args =>
    simp only [call.sizeOf_spec]
    rcases List.mem_cons.mp h with rfl | hargs
    · omega
    · have hlt := List.sizeOf_lt_of_mem hargs
      omega

/-- What holds of an expression as soon as it holds of its parts holds of all expressions. -/
theorem induction_parts {motive : Expr → Prop}
    (step : ∀ e, (∀ part ∈ e.parts, motive part) → motive e) (e : Expr) : motive e :=
  step e fun part hpart =>
    have := sizeOf_lt_of_mem_parts hpart
    induction_parts step part
termination_by sizeOf e

/-- An expression is bound when it is itself a local or `this`, or one of its parts is bound. -/
theorem isMethodBound_step (e : Expr) :
    e.isMethodBound = (e.isLocal || e.parts.any isMethodBound) := by
  cases e with
  | field | new | call | invoke => simp [isMethodBound, isLocal, parts, anyMethodBound_eq_any]
  | _ => rfl

/-- It is bound exactly when a local or `this` occurs in it. -/
theorem isMethodBound_iff_exists (e : Expr) :
    e.isMethodBound = true ↔ ∃ inner, Occurs inner e ∧ inner.isLocal = true := by
  induction e using induction_parts with
  | step e ih =>
    rw [isMethodBound_step, Bool.or_eq_true, List.any_eq_true]
    constructor
    · rintro (hlocal | ⟨part, hpart, hbound⟩)
      · exact ⟨e, .here, hlocal⟩
      · obtain ⟨inner, hoccurs, hlocal⟩ := (ih part hpart).mp hbound
        exact ⟨inner, .inside hpart hoccurs, hlocal⟩
    · rintro ⟨inner, hoccurs, hlocal⟩
      cases hoccurs with
      | here => exact .inl hlocal
      | inside hpart hoccurs => exact .inr ⟨_, hpart, (ih _ hpart).mpr ⟨inner, hoccurs, hlocal⟩⟩

/-- What expressions are evaluated in: the locals and `this` of a method, and all the rest. -/
structure Environment (Value Rest : Type) where
  locals : String → Option Value
  this : Option Value
  rest : Rest

/-- A way to evaluate expressions. Variables and `this` get the whole environment. Every other form gets the rest of it,
and what its parts come to from any rest, so it may evaluate them in any order, see what they change, or leave them
out. -/
structure Evaluation (Value Rest Outcome : Type) where
  ofLocal : Expr → Environment Value Rest → Outcome
  ofParts : Expr → List (Rest → Outcome) → Rest → Outcome

namespace Evaluation

variable {Value Rest Outcome : Type} (v : Evaluation Value Rest Outcome)

mutual

def eval : Expr → Environment Value Rest → Outcome
  | var name, env => v.ofLocal (var name) env
  | this, env => v.ofLocal this env
  | field target name, env =>
    v.ofParts (field target name) [fun rest => eval target { env with rest }] env.rest
  | new t args, env => v.ofParts (new t args) (evalAll args env) env.rest
  | call target method args, env =>
    v.ofParts (call target method args)
      ((fun rest => eval target { env with rest }) :: evalAll args env) env.rest
  | invoke method args, env => v.ofParts (invoke method args) (evalAll args env) env.rest
  | literal l, env => v.ofParts (literal l) [] env.rest
  | type t, env => v.ofParts (type t) [] env.rest
  | typeOf t, env => v.ofParts (typeOf t) [] env.rest
  | methodGroup name, env => v.ofParts (methodGroup name) [] env.rest

def evalAll : List Expr → Environment Value Rest → List (Rest → Outcome)
  | [], _ => []
  | e :: rest, env => (fun rest => eval e { env with rest }) :: evalAll rest env

end

theorem evalAll_eq_map (es : List Expr) (env : Environment Value Rest) :
    v.evalAll es env = es.map fun e rest => v.eval e { env with rest } := by
  induction es with
  | nil => rfl
  | cons e rest ih => rw [evalAll, ih, List.map_cons]

/-- Evaluation reads the locals only at a local or `this`: anything else depends on the values of its parts
and the rest. -/
theorem eval_step {e : Expr} (h : e.isLocal = false) (env : Environment Value Rest) :
    v.eval e env = v.ofParts e (e.parts.map fun part rest => v.eval part { env with rest }) env.rest := by
  cases e with
  | var | this => cases h
  | field | new | call | invoke => simp only [eval, parts, evalAll_eq_map, List.map_cons, List.map_nil]
  | _ => rfl

/-- What is not method bound does not depend on the locals and on `this`. -/
theorem eval_of_isMethodBound {e : Expr} (h : e.isMethodBound = false) {env env' : Environment Value Rest}
    (hrest : env.rest = env'.rest) : v.eval e env = v.eval e env' := by
  induction e using induction_parts generalizing env env' with
  | step e ih =>
    rw [isMethodBound_step, Bool.or_eq_false_iff, List.any_eq_false] at h
    obtain ⟨hlocal, hparts⟩ := h
    have hmeanings : (e.parts.map fun part rest => v.eval part { env with rest }) =
        e.parts.map fun part rest => v.eval part { env' with rest } := by
      refine List.map_congr_left fun part hpart => funext fun rest => ?_
      exact ih part hpart (Bool.eq_false_iff.mpr (hparts part hpart)) rfl
    rw [v.eval_step hlocal, v.eval_step hlocal, hmeanings, hrest]

end Evaluation

/-- An expression is method bound exactly when a variable or `this` occurs in it. What is not method bound evaluates to
the same in any two environments that differ in the locals and `this` only. -/
theorem isMethodBound_iff_occurs (e : Expr) :
    (e.isMethodBound = true ↔ (∃ name, Occurs (var name) e) ∨ Occurs this e) ∧
      (e.isMethodBound = false →
        ∀ (Value Rest Outcome : Type) (v : Evaluation Value Rest Outcome) (env env' : Environment Value Rest),
          env.rest = env'.rest → v.eval e env = v.eval e env') := by
  refine ⟨?_, fun h _ _ _ v env env' hrest => v.eval_of_isMethodBound h hrest⟩
  rw [isMethodBound_iff_exists]
  constructor
  · rintro ⟨inner, hoccurs, hlocal⟩
    cases inner with
    | var name => exact .inl ⟨name, hoccurs⟩
    | this => exact .inr hoccurs
    | _ => cases hlocal
  · rintro (⟨name, hoccurs⟩ | hoccurs)
    · exact ⟨var name, hoccurs, rfl⟩
    · exact ⟨this, hoccurs, rfl⟩

/-- Keeps a log to which the parts write in order, and then the expression itself. -/
def logging : Evaluation String (List String) (List String) where
  ofLocal e env :=
    match e with
    | var name => env.rest ++ (env.locals name).toList
    | _ => env.rest ++ env.this.toList
  ofParts e parts log :=
    let log := parts.foldl (fun log part => part log) log
    match e with
    | new (.named name) _ | field _ name | call _ name _ => log ++ [name]
    | _ => log

/-- `new GradientStop(Palette.Mix(Colors.Red), 1)`. -/
def gradientStopExpr : Expr :=
  construct "GradientStop" [call (type (.named "Palette")) "Mix" [static "Colors" "Red"], literal (.int32 1)]

theorem isMethodBound_iff_occurs_gradientStop :
    gradientStopExpr.isMethodBound = false ∧
      logging.eval gradientStopExpr ⟨fun _ => none, none, ["start"]⟩ =
        logging.eval gradientStopExpr ⟨fun name => some name, some "page", ["start"]⟩ ∧
      logging.eval gradientStopExpr ⟨fun _ => none, none, ["start"]⟩ = ["start", "Red", "Mix", "GradientStop"] :=
  ⟨rfl, (isMethodBound_iff_occurs gradientStopExpr).2 rfl _ _ _ logging _ _ rfl, rfl⟩

mutual

/-- The locals that an expression mentions. -/
def vars : Expr → List String
  | var name => [name]
  | this | literal _ | type _ | typeOf _ | methodGroup _ => []
  | field target _ => target.vars
  | new _ args => varsAll args
  | call target _ args => target.vars ++ varsAll args
  | invoke _ args => varsAll args

def varsAll : List Expr → List String
  | [] => []
  | e :: rest => e.vars ++ varsAll rest

end

mutual

def mentionsThis : Expr → Bool
  | this => true
  | var _ | literal _ | type _ | typeOf _ | methodGroup _ => false
  | field target _ => target.mentionsThis
  | new _ args => anyMentionsThis args
  | call target _ args => target.mentionsThis || anyMentionsThis args
  | invoke _ args => anyMentionsThis args

def anyMentionsThis : List Expr → Bool
  | [] => false
  | e :: rest => e.mentionsThis || anyMentionsThis rest

end

theorem varsAll_eq_flatMap (es : List Expr) : varsAll es = es.flatMap vars := by
  induction es with
  | nil => rfl
  | cons e rest ih => simp [varsAll, ih]

theorem anyMentionsThis_eq_any (es : List Expr) : anyMentionsThis es = es.any mentionsThis := by
  induction es with
  | nil => rfl
  | cons e rest ih => simp [anyMentionsThis, ih]

mutual

/-- An expression is method bound exactly when it mentions a local or `this`. -/
theorem isMethodBound_eq (e : Expr) :
    e.isMethodBound = (!e.vars.isEmpty || e.mentionsThis) := by
  cases e with
  | field target name => simp only [isMethodBound, vars, mentionsThis, isMethodBound_eq target]
  | new t args => simp only [isMethodBound, vars, mentionsThis, anyMethodBound_eq args]
  | call target method args =>
    simp only [isMethodBound, vars, mentionsThis, isMethodBound_eq target,
      anyMethodBound_eq args]
    cases target.vars <;> simp [Bool.or_left_comm]
  | invoke method args => simp only [isMethodBound, vars, mentionsThis, anyMethodBound_eq args]
  | _ => rfl

/-- Being bound is having a variable or mentioning `this`. -/
theorem anyMethodBound_eq (es : List Expr) :
    anyMethodBound es = (!(varsAll es).isEmpty || anyMentionsThis es) := by
  cases es with
  | nil => rfl
  | cons e rest =>
    simp only [anyMethodBound, varsAll, anyMentionsThis, isMethodBound_eq e,
      anyMethodBound_eq rest]
    cases e.vars <;> simp [Bool.or_left_comm]

end

/-- An expression that may stand where those locals are declared. -/
structure Scoped (static : Bool) (locals : List String) (e : Expr) : Prop where
  vars : ∀ x ∈ e.vars, x ∈ locals
  this : static = true → e.mentionsThis = false

variable {static : Bool} {locals more : List String} {e target : Expr} {args : List Expr}

/-- What is scoped stays so when more locals are declared. -/
theorem Scoped.mono (h : e.Scoped static locals) (hm : ∀ x ∈ locals, x ∈ more) :
    e.Scoped static more :=
  ⟨fun x hx => hm x (h.vars x hx), h.this⟩

/-- What is not method bound may stand everywhere. -/
theorem scoped_of_isMethodBound (h : e.isMethodBound = false) : e.Scoped static locals := by
  rw [isMethodBound_eq, Bool.or_eq_false_iff, Bool.not_eq_false', List.isEmpty_iff] at h
  refine ⟨fun x hx => ?_, fun _ => h.2⟩
  rw [h.1] at hx
  cases hx

theorem scoped_var {name : String} (h : name ∈ locals) : (var name).Scoped static locals :=
  ⟨fun _ hx => List.mem_singleton.mp hx ▸ h, fun _ => rfl⟩

theorem Scoped.field (h : target.Scoped static locals) (name : String) :
    (field target name).Scoped static locals :=
  ⟨h.vars, h.this⟩

theorem scoped_new (t : TypeRef) (h : ∀ e ∈ args, e.Scoped static locals) :
    (new t args).Scoped static locals := by
  constructor
  · intro x hx
    rw [Expr.vars, varsAll_eq_flatMap] at hx
    obtain ⟨e, he, hx⟩ := List.mem_flatMap.mp hx
    exact (h e he).vars x hx
  · intro hs
    rw [mentionsThis, anyMentionsThis_eq_any, List.any_eq_false]
    intro e he
    simp [(h e he).this hs]

/-- A call is scoped when its target and its arguments are. -/
theorem Scoped.call (h : target.Scoped static locals) (method : String)
    (hargs : ∀ e ∈ args, e.Scoped static locals) :
    (call target method args).Scoped static locals := by
  have hnew := scoped_new .void hargs
  constructor
  · intro x hx
    rcases List.mem_append.mp hx with hx | hx
    · exact h.vars x hx
    · exact hnew.vars x hx
  · intro hs
    rw [mentionsThis, h.this hs, Bool.false_or]
    exact hnew.this hs

end Expr

namespace Statement

def expressions : Statement → List Expr
  | declare _ _ value => value.toList
  | assign target value => [target, value]
  | expr e => [e]
  | ret value => value.toList

/-- The names that statements declare, in order. -/
def localsOf (body : List Statement) : List String := body.filterMap declared?

end Statement

namespace Method

def locals (m : Method) : List String := Statement.localsOf m.body

/-- Every expression of a statement may stand after the statements before it. -/
def Scoped (static : Bool) (m : Method) : Prop :=
  ∀ before s after, m.body = before ++ s :: after →
    ∀ e ∈ s.expressions, e.Scoped static (Statement.localsOf before)

/-- A statement adds the local that it declares, behind those of the method. -/
theorem locals_push (m : Method) (s : Statement) :
    (m.push s).locals = m.locals ++ s.declared?.toList := by
  simp only [locals, Statement.localsOf, body_push, List.filterMap_append]
  cases h : s.declared? <;> simp [h]

/-- A method without statements is scoped. -/
theorem scoped_of_body_eq_nil {static : Bool} {m : Method} (h : m.body = []) : m.Scoped static := by
  intro before s after hb
  simp [h] at hb

/-- A method stays scoped when a statement is added that uses only what has been declared. -/
theorem Scoped.push {static : Bool} {m : Method} {s : Statement} (h : m.Scoped static)
    (hs : ∀ e ∈ s.expressions, e.Scoped static m.locals) : (m.push s).Scoped static := by
  intro before t after hb
  rw [body_push] at hb
  rcases List.eq_nil_or_concat after with rfl | ⟨rest, u, rfl⟩
  · obtain ⟨rfl, heq⟩ := List.append_inj' hb rfl
    cases heq
    exact hs
  · have hb' : m.body ++ [s] = (before ++ t :: rest) ++ [u] := by simpa using hb
    exact h before t rest (List.append_inj' hb' rfl).1

end Method

end ResourceCode
