import DualForm.Text.Quoted

/-!
# Static types

* `DualKind` — the two kinds of dual: projections and specifications.
* `Wrapper` — what a type can stand for besides plain data: a dual or a factory of duals.
* `Ty` — static types of tree nodes, with decidable equality (`Ty.beq`, `Ty.beq_iff`).
* `Ty.wrapper?` — the dual or factory a type denotes, if any.
* `Ty.accepts` — whether a value of one type may flow into a slot of another.
* `Ty.text` — the written form; `Ty.inspect` — the constructor form.
-/

namespace DualForm

/-- The two kinds of dual. -/
inductive DualKind where
  /-- A mapping from a source to a result. -/
  | projection
  /-- A predicate over a source. -/
  | specification
deriving DecidableEq, Repr, Inhabited

/-- Name of a kind of dual. -/
def DualKind.name : DualKind → String
  | .projection => "Projection"
  | .specification => "Specification"

/-- What a type wraps: a dual, or a factory that makes duals. -/
inductive Wrapper where
  | dual (kind : DualKind)
  | factory (kind : DualKind)
deriving DecidableEq, Repr, Inhabited

namespace Wrapper

/-- Name of a wrapper. -/
def name : Wrapper → String
  | .dual kind => kind.name
  | .factory kind => kind.name ++ "Factory"

/-- Whether the wrapper is a factory. -/
def isFactory : Wrapper → Bool
  | .dual _ => false
  | .factory _ => true

end Wrapper

/-- Static type of a tree node. -/
inductive Ty where
  /-- No meaningful value. -/
  | void
  | bool
  | int
  | float
  | str
  /-- Accepts any value. -/
  | any
  | list (element : Ty)
  /-- Nominal object type. -/
  | named (name : String)
  | func (params : List Ty) (result : Ty)
  | projection (source result : Ty)
  | specification (source : Ty)
  | projectionFactory (params : List Ty) (source result : Ty)
  | specificationFactory (params : List Ty) (source : Ty)
deriving Repr, Inhabited

namespace Ty

/-! ## Equality -/

mutual

/-- Structural comparison. -/
def beq : Ty → Ty → Bool
  | .void, .void => true
  | .bool, .bool => true
  | .int, .int => true
  | .float, .float => true
  | .str, .str => true
  | .any, .any => true
  | .list a, .list b => beq a b
  | .named a, .named b => a == b
  | .func ps r, .func qs s => beqAll ps qs && beq r s
  | .projection a r, .projection b s => beq a b && beq r s
  | .specification a, .specification b => beq a b
  | .projectionFactory ps a r, .projectionFactory qs b s => beqAll ps qs && beq a b && beq r s
  | .specificationFactory ps a, .specificationFactory qs b => beqAll ps qs && beq a b
  | _, _ => false

/-- Structural comparison of type lists. -/
def beqAll : List Ty → List Ty → Bool
  | [], [] => true
  | a :: as, b :: bs => beq a b && beqAll as bs
  | _, _ => false

end

mutual

theorem beq_refl : ∀ a : Ty, beq a a = true
  | .void | .bool | .int | .float | .str | .any => rfl
  | .list a => by simp [beq, beq_refl a]
  | .named a => by simp [beq]
  | .func ps r => by simp [beq, beqAll_refl ps, beq_refl r]
  | .projection a r => by simp [beq, beq_refl a, beq_refl r]
  | .specification a => by simp [beq, beq_refl a]
  | .projectionFactory ps a r => by simp [beq, beqAll_refl ps, beq_refl a, beq_refl r]
  | .specificationFactory ps a => by simp [beq, beqAll_refl ps, beq_refl a]

theorem beqAll_refl : ∀ as : List Ty, beqAll as as = true
  | [] => rfl
  | a :: as => by simp [beqAll, beq_refl a, beqAll_refl as]

end

mutual

theorem eq_of_beq : ∀ {a b : Ty}, beq a b = true → a = b
  | .void, b, h => by cases b <;> simp_all [beq]
  | .bool, b, h => by cases b <;> simp_all [beq]
  | .int, b, h => by cases b <;> simp_all [beq]
  | .float, b, h => by cases b <;> simp_all [beq]
  | .str, b, h => by cases b <;> simp_all [beq]
  | .any, b, h => by cases b <;> simp_all [beq]
  | .list a, b, h => by
      cases b <;> simp only [beq, Bool.false_eq_true] at h
      rw [eq_of_beq h]
  | .named a, b, h => by cases b <;> simp_all [beq]
  | .func ps r, b, h => by
      cases b <;> simp only [beq, Bool.and_eq_true, Bool.false_eq_true] at h
      rw [eq_of_beqAll h.1, eq_of_beq h.2]
  | .projection a r, b, h => by
      cases b <;> simp only [beq, Bool.and_eq_true, Bool.false_eq_true] at h
      rw [eq_of_beq h.1, eq_of_beq h.2]
  | .specification a, b, h => by
      cases b <;> simp only [beq, Bool.false_eq_true] at h
      rw [eq_of_beq h]
  | .projectionFactory ps a r, b, h => by
      cases b <;> simp only [beq, Bool.and_eq_true, Bool.false_eq_true] at h
      rw [eq_of_beqAll h.1.1, eq_of_beq h.1.2, eq_of_beq h.2]
  | .specificationFactory ps a, b, h => by
      cases b <;> simp only [beq, Bool.and_eq_true, Bool.false_eq_true] at h
      rw [eq_of_beqAll h.1, eq_of_beq h.2]

theorem eq_of_beqAll : ∀ {as bs : List Ty}, beqAll as bs = true → as = bs
  | [], bs, h => by cases bs <;> simp_all [beqAll]
  | a :: as, bs, h => by
      cases bs <;> simp only [beqAll, Bool.and_eq_true, Bool.false_eq_true] at h
      rw [eq_of_beq h.1, eq_of_beqAll h.2]

end

theorem beq_iff {a b : Ty} : beq a b = true ↔ a = b :=
  ⟨eq_of_beq, fun h => h ▸ beq_refl a⟩

instance : DecidableEq Ty := fun _ _ => decidable_of_iff _ beq_iff

/-! ## Queries -/

/-- The dual or factory a type denotes. -/
def wrapper? : Ty → Option Wrapper
  | .projection .. => some (.dual .projection)
  | .specification _ => some (.dual .specification)
  | .projectionFactory .. => some (.factory .projection)
  | .specificationFactory .. => some (.factory .specification)
  | _ => none

/-- Whether the type denotes this dual or factory. -/
def declares (t : Ty) (w : Wrapper) : Bool := t.wrapper? = some w

/-- Result type of a function type. -/
def result? : Ty → Option Ty
  | .func _ result => some result
  | _ => none

/-- Whether the type is a function type. -/
def isFunc : Ty → Bool
  | .func .. => true
  | _ => false

/-- Whether a value of type `other` may flow into a slot of this type. -/
def accepts (t other : Ty) : Bool := t = .any || other = .any || t = other

/-- Type of a dual of this kind. A specification does not name its result. -/
def ofDual (kind : DualKind) (source result : Ty) : Ty :=
  match kind with
  | .projection => .projection source result
  | .specification => .specification source

/-- Type of a factory that makes duals of this kind. -/
def ofFactory (kind : DualKind) (params : List Ty) (source result : Ty) : Ty :=
  match kind with
  | .projection => .projectionFactory params source result
  | .specification => .specificationFactory params source

/-! ## Texts -/

mutual

/-- Written form of a type. -/
def text : Ty → String
  | .void => "void"
  | .bool => "bool"
  | .int => "int"
  | .float => "float"
  | .str => "string"
  | .any => "any"
  | .list element => "List<" ++ text element ++ ">"
  | .named name => name
  | .func params result => "Func<" ++ ", ".intercalate (texts params ++ [text result]) ++ ">"
  | .projection source result => "Projection<" ++ text source ++ ", " ++ text result ++ ">"
  | .specification source => "Specification<" ++ text source ++ ">"
  | .projectionFactory params source result =>
      "ProjectionFactory<" ++ text source ++ ", " ++ text result ++ ", " ++
        ", ".intercalate (texts params) ++ ">"
  | .specificationFactory params source =>
      "SpecificationFactory<" ++ text source ++ ", " ++ ", ".intercalate (texts params) ++ ">"

/-- Written forms of a list of types. -/
def texts : List Ty → List String
  | [] => []
  | t :: ts => text t :: texts ts

end

mutual

/-- Constructor form of a type. -/
def inspect : Ty → String
  | .void => "Void"
  | .bool => "Bool"
  | .int => "Int"
  | .float => "Float"
  | .str => "Str"
  | .any => "Any"
  | .list element => "List(" ++ inspect element ++ ")"
  | .named name => "Named(" ++ quoted name ++ ")"
  | .func params result =>
      "Func([" ++ ", ".intercalate (inspectAll params) ++ "], " ++ inspect result ++ ")"
  | .projection source result => "Projection(" ++ inspect source ++ ", " ++ inspect result ++ ")"
  | .specification source => "Specification(" ++ inspect source ++ ")"
  | .projectionFactory params source result =>
      "ProjectionFactory \x7b params: [" ++ ", ".intercalate (inspectAll params) ++
        "], source: " ++ inspect source ++ ", result: " ++ inspect result ++ " \x7d"
  | .specificationFactory params source =>
      "SpecificationFactory \x7b params: [" ++ ", ".intercalate (inspectAll params) ++
        "], source: " ++ inspect source ++ " \x7d"

/-- Constructor forms of a list of types. -/
def inspectAll : List Ty → List String
  | [] => []
  | t :: ts => inspect t :: inspectAll ts

end

end Ty

end DualForm
