import Caster.Analyze.Bindings

/-!
# The C objects of names

The C code of a function body as far as its names go.  An expression with parts of its own is a
statement expression, and the declarations of a method or of a loop stand around the code that is
inside them.  Every occurrence resolves in C to the object of its symbol exactly when its symbol has
an object and no declaration in whose C scope it stands, other than its own, declares its identifier.
-/

namespace Caster

open BlockScope

/-! ### The C code -/

/-- The C code of a method that runs for each element, with the code of the object and of what is
run. -/
def EachMethod.code (method : EachMethod) (number obj : ℕ) (object inner : Code String) :
    Code String :=
  let (index, element) := method.names number
  let loop : Code String :=
    .block (.declare index (obj + 4) .done (.block (.declare element (obj + 5) .done inner) .done))
      .done
  .declare ("source_" ++ index) obj object (.declare ("result_" ++ index) (obj + 1) .done
    (if method = .map then
      .declare ("iter_" ++ index) (obj + 2) .done (.declare ("item_" ++ index) (obj + 3) .done loop)
    else loop))

/-- The C code of a method with a key.  The key of `sort` is printed for the left and for the right
element. -/
def KeyMethod.code (method : KeyMethod) (number obj : ℕ) (object key : Code String) : Code String :=
  let (index, element) := method.names number
  .declare ("source_" ++ index) obj object (.declare ("result_" ++ index) (obj + 1) .done
    (match method with
    | .group =>
      .block (.declare index (obj + 4) .done
        (.block (.declare element (obj + 5) .done (.declare ("key_" ++ index) (obj + 6) key .done))
          .done)) .done
    | .sort =>
      .block (.declare ("sort_outer_" ++ index) (obj + 2) .done
        (.block (.block (.declare ("sort_inner_" ++ index) (obj + 3) .done
          (.block (.declare element (obj + 5) .done
            (.declare ("left_" ++ index) (obj + 6) key
              (.declare ("right_" ++ index) (obj + 7) key .done))) .done)) .done) .done)) .done))

/-- The C code of a loop over one argument. -/
def ArgLoop.code (kind : ArgLoop) (as : Option String) (number obj : ℕ) (arg body : Code String) :
    Code String :=
  let index := indexName as number
  let element := elementName kind as number
  match kind with
  | .count | .condition => .declare index (obj + 2) .done (.block arg (.block body .done))
  | .array | .str =>
    .declare index (obj + 2) .done (.block arg (.block (.declare element (obj + 3) arg body) .done))
  | .map =>
    .declare ("iter_" ++ index) obj .done (.declare ("item_" ++ index) (obj + 1) .done
      (.block (.declare index (obj + 2) .done
        (.block arg (.block arg (.block (.declare element (obj + 3) .done body) .done)))) .done))

/-- The C code of a method that changes an array in place. -/
def inPlaceCode (name : String) (number obj : ℕ) (object inner : Code String) : Code String :=
  let (index, element) := methodNames name number
  let loop : Code String :=
    .block (.declare index (obj + 2) .done (.block (.declare element (obj + 3) .done inner) .done))
      .done
  .declare ("target_" ++ index) obj object
    (if name = "filt" then .declare ("write_" ++ index) (obj + 1) .done loop else loop)

/-- The declarations of locals without occurrences in their initializers. -/
def declareLocals (obj : ℕ) (rest : Code String) : List String → Code String
  | [] => rest
  | name :: names => .declare name obj .done (declareLocals (obj + 1) rest names)

mutual

/-- The C code of an expression. -/
def BoundExpr.code : BoundExpr → Code String
  | .use id obj => .use id obj .done
  | .node operands => .block operands.code .done
  | .each method number obj object args body =>
    .block (method.code number obj object.code (.block args.code body.code)) .done
  | .keyed method number obj object key => .block (method.code number obj object.code key.code) .done
  | .tap number obj object body => .block (.declare (tapName number) obj object.code body.code) .done

/-- The C code of operands. -/
def BoundOperands.code : BoundOperands → Code String
  | .nil => .done
  | .cons none e rest => .block e.code rest.code
  | .cons (some temporary) e rest => .declare temporary.1 temporary.2 e.code rest.code

/-- The C code of statements. -/
def BoundBody.code : BoundBody → Code String
  | .nil => .done
  | .declare x obj value rest => .declare x obj value.code rest.code
  | .assign id obj value rest => .use id obj (.block value.code rest.code)
  | .exec e rest => .block e.code rest.code
  | .destructure temporary obj names value rest =>
    .declare temporary obj value.code (declareLocals (obj + 1) rest.code names)
  | .throw obj value rest => .block (.declare "throw_message" obj value.code .done) rest.code
  | .block body rest => .block body.code rest.code
  | .range index obj start stop step body rest =>
    .block (.declare index obj start.code (.block step.code (.block stop.code (.block stop.code
      (.block step.code (.block body.code .done)))))) rest.code
  | .loop kind as number obj arg body rest =>
    .block (kind.code as number obj arg.code body.code) rest.code
  | .inPlace name number obj object args body rest =>
    .block (inPlaceCode name number obj object.code (.block args.code body.code)) rest.code

end

/-- The C code of a function, whose parameters are in one block with its statements. -/
def BoundFunction.code (f : BoundFunction) (body : BoundBody) : Code String :=
  declareLocals f.objects.length body.code f.params

/-! ### Occurrences and declarations -/

mutual

/-- The occurrences in an expression. -/
def BoundExpr.uses : BoundExpr → List (String × Option ℕ)
  | .use id obj => [(id, obj)]
  | .node operands => operands.uses
  | .each _ _ _ object args body => object.uses ++ (args.uses ++ body.uses)
  | .keyed _ _ _ object key => object.uses ++ key.uses
  | .tap _ _ object body => object.uses ++ body.uses

/-- The occurrences in operands. -/
def BoundOperands.uses : BoundOperands → List (String × Option ℕ)
  | .nil => []
  | .cons _ e rest => e.uses ++ rest.uses

/-- The occurrences in statements. -/
def BoundBody.uses : BoundBody → List (String × Option ℕ)
  | .nil => []
  | .declare _ _ value rest | .destructure _ _ _ value rest | .throw _ value rest
  | .exec value rest => value.uses ++ rest.uses
  | .assign id obj value rest => (id, obj) :: (value.uses ++ rest.uses)
  | .block body rest => body.uses ++ rest.uses
  | .range _ _ start stop step body rest =>
    start.uses ++ (stop.uses ++ (step.uses ++ (body.uses ++ rest.uses)))
  | .loop _ _ _ _ arg body rest => arg.uses ++ (body.uses ++ rest.uses)
  | .inPlace _ _ _ object args body rest =>
    object.uses ++ (args.uses ++ (body.uses ++ rest.uses))

end

/-- The declarations around what a method runs for each element. -/
def EachMethod.declared (method : EachMethod) (number obj : ℕ) : List (String × ℕ) :=
  let (index, element) := method.names number
  [("source_" ++ index, obj), ("result_" ++ index, obj + 1), (index, obj + 4), (element, obj + 5)] ++
    if method = .map then [("iter_" ++ index, obj + 2), ("item_" ++ index, obj + 3)] else []

/-- The declarations around the key of a method. -/
def KeyMethod.declared (method : KeyMethod) (number obj : ℕ) : List (String × ℕ) :=
  let (index, element) := method.names number
  [("source_" ++ index, obj), ("result_" ++ index, obj + 1), (element, obj + 5)] ++
    match method with
    | .group => [(index, obj + 4), ("key_" ++ index, obj + 6)]
    | .sort =>
      [("sort_outer_" ++ index, obj + 2), ("sort_inner_" ++ index, obj + 3),
        ("left_" ++ index, obj + 6), ("right_" ++ index, obj + 7)]

/-- The declarations around the argument of a loop. -/
def ArgLoop.around (kind : ArgLoop) (as : Option String) (number obj : ℕ) : List (String × ℕ) :=
  let index := indexName as number
  match kind with
  | .count | .condition => [(index, obj + 2)]
  | .array | .str => [(index, obj + 2), (elementName kind as number, obj + 3)]
  | .map => [("iter_" ++ index, obj), ("item_" ++ index, obj + 1), (index, obj + 2)]

/-- The declaration in the block of a loop's statements. -/
def ArgLoop.inside (kind : ArgLoop) (as : Option String) (number obj : ℕ) : List (String × ℕ) :=
  match kind with
  | .count | .condition => []
  | .array | .str | .map => [(elementName kind as number, obj + 3)]

/-- The declarations around what a method in place runs. -/
def inPlaceDeclared (name : String) (number obj : ℕ) : List (String × ℕ) :=
  let (index, element) := methodNames name number
  [("target_" ++ index, obj), (index, obj + 2), (element, obj + 3)] ++
    if name = "filt" then [("write_" ++ index, obj + 1)] else []

/-- No occurrence of an object from before the declarations is printed as an identifier of them. -/
def ApartFrom (uses : List (String × Option ℕ)) (decls : List (String × ℕ)) : Prop :=
  ∀ decl ∈ decls, ∀ o, (decl.1, some o) ∈ uses → decl.2 ≤ o

mutual

/-- In an expression, the declarations of the C code are apart from the occurrences in their scope,
and distinct in each block. -/
def BoundExpr.Apart : BoundExpr → Prop
  | .use _ _ => True
  | .node operands => operands.Apart []
  | .each method number obj object args body =>
    ApartFrom object.uses [("source_" ++ (method.names number).1, obj)] ∧
      ApartFrom (args.uses ++ body.uses) (method.declared number obj) ∧
      object.Apart ∧ args.Apart [] ∧ body.Apart [(method.names number).2]
  | .keyed method number obj object key =>
    ApartFrom object.uses [("source_" ++ (method.names number).1, obj)] ∧
      ApartFrom key.uses (method.declared number obj) ∧ object.Apart ∧ key.Apart
  | .tap number obj object body =>
    ApartFrom (object.uses ++ body.uses) [(tapName number, obj)] ∧ object.Apart ∧
      body.Apart [tapName number]

/-- The same in operands, in a block that has declared identifiers. -/
def BoundOperands.Apart (declared : List String) : BoundOperands → Prop
  | .nil => True
  | .cons none e rest => e.Apart ∧ rest.Apart declared
  | .cons (some temporary) e rest =>
    temporary.1 ∉ declared ∧ ApartFrom (e.uses ++ rest.uses) [temporary] ∧ e.Apart ∧
      rest.Apart (temporary.1 :: declared)

/-- The same in statements, in a block that has declared identifiers. -/
def BoundBody.Apart (declared : List String) : BoundBody → Prop
  | .nil => True
  | .declare x obj value rest =>
    x ∉ declared ∧ ApartFrom (value.uses ++ rest.uses) [(x, obj)] ∧ value.Apart ∧
      rest.Apart (x :: declared)
  | .assign _ _ value rest => value.Apart ∧ rest.Apart declared
  | .exec e rest => e.Apart ∧ rest.Apart declared
  | .destructure temporary obj names value rest =>
    (temporary ∉ declared ∧ names.Nodup ∧ ∀ x ∈ names, x ∉ temporary :: declared) ∧
      ApartFrom (value.uses ++ rest.uses) [(temporary, obj)] ∧
      ApartFrom rest.uses (names.zipIdx (obj + 1)) ∧ value.Apart ∧
      rest.Apart (names.reverse ++ temporary :: declared)
  | .throw obj value rest =>
    ApartFrom value.uses [("throw_message", obj)] ∧ value.Apart ∧ rest.Apart declared
  | .block body rest => body.Apart [] ∧ rest.Apart declared
  | .range index obj start stop step body rest =>
    ApartFrom (start.uses ++ (stop.uses ++ (step.uses ++ body.uses))) [(index, obj)] ∧
      start.Apart ∧ stop.Apart ∧ step.Apart ∧ body.Apart [] ∧ rest.Apart declared
  | .loop kind as number obj arg body rest =>
    ApartFrom (arg.uses ++ body.uses) (kind.around as number obj) ∧
      ApartFrom body.uses (kind.inside as number obj) ∧
      arg.Apart ∧ body.Apart ((kind.inside as number obj).map Prod.fst) ∧ rest.Apart declared
  | .inPlace name number obj object args body rest =>
    ApartFrom object.uses [("target_" ++ (methodNames name number).1, obj)] ∧
      ApartFrom (args.uses ++ body.uses) (inPlaceDeclared name number obj) ∧
      object.Apart ∧ args.Apart [] ∧ body.Apart [(methodNames name number).2] ∧ rest.Apart declared

end

/-- The same in a function. -/
def BoundFunction.Apart (f : BoundFunction) (body : BoundBody) : Prop :=
  ApartFrom body.uses (f.params.zipIdx f.objects.length) ∧ body.Apart f.params.reverse

/-! ### The occurrences of the code -/

theorem mem_uses_declareLocals (use : String × Option ℕ) (rest : Code String) (names : List String)
    (obj : ℕ) :
  use ∈ (declareLocals obj rest names).uses ↔ use ∈ rest.uses
  := by
  induction names generalizing obj with
  | nil => rfl
  | cons name names ih => simp [declareLocals, Code.uses, ih]

theorem EachMethod.mem_uses_code (method : EachMethod) (number obj : ℕ) (object inner : Code String)
    (use : String × Option ℕ) :
  use ∈ (method.code number obj object inner).uses ↔ use ∈ object.uses ∨ use ∈ inner.uses
  := by
  by_cases hmap : method = .map <;> simp [EachMethod.code, hmap, Code.uses]

theorem KeyMethod.mem_uses_code (method : KeyMethod) (number obj : ℕ) (object key : Code String)
    (use : String × Option ℕ) :
  use ∈ (method.code number obj object key).uses ↔ use ∈ object.uses ∨ use ∈ key.uses
  := by
  cases method <;> simp [KeyMethod.code, Code.uses]

theorem ArgLoop.mem_uses_code (kind : ArgLoop) (as : Option String) (number obj : ℕ)
    (arg body : Code String) (use : String × Option ℕ) :
  use ∈ (kind.code as number obj arg body).uses ↔ use ∈ arg.uses ∨ use ∈ body.uses
  := by
  cases kind <;> simp [ArgLoop.code, Code.uses]

theorem mem_uses_inPlaceCode (name : String) (number obj : ℕ) (object inner : Code String)
    (use : String × Option ℕ) :
  use ∈ (inPlaceCode name number obj object inner).uses ↔ use ∈ object.uses ∨ use ∈ inner.uses
  := by
  by_cases hfilt : name = "filt" <;> simp [inPlaceCode, hfilt, Code.uses]

mutual

/-- The code of an expression has its occurrences. -/
theorem BoundExpr.mem_uses_code (use : String × Option ℕ) :
    ∀ e : BoundExpr, use ∈ e.code.uses ↔ use ∈ e.uses
  | .use id obj => by simp [BoundExpr.code, BoundExpr.uses, Code.uses]
  | .node operands => by
    simp [BoundExpr.code, BoundExpr.uses, Code.uses, operands.mem_uses_code use]
  | .each method number obj object args body => by
    simp [BoundExpr.code, BoundExpr.uses, Code.uses, EachMethod.mem_uses_code,
      object.mem_uses_code use, args.mem_uses_code use, body.mem_uses_code use]
  | .keyed method number obj object key => by
    simp [BoundExpr.code, BoundExpr.uses, Code.uses, KeyMethod.mem_uses_code,
      object.mem_uses_code use, key.mem_uses_code use]
  | .tap number obj object body => by
    simp [BoundExpr.code, BoundExpr.uses, Code.uses, object.mem_uses_code use,
      body.mem_uses_code use]

/-- The code of operands has their occurrences. -/
theorem BoundOperands.mem_uses_code (use : String × Option ℕ) :
    ∀ operands : BoundOperands, use ∈ operands.code.uses ↔ use ∈ operands.uses
  | .nil => by simp [BoundOperands.code, BoundOperands.uses, Code.uses]
  | .cons none e rest => by
    simp [BoundOperands.code, BoundOperands.uses, Code.uses, e.mem_uses_code use,
      rest.mem_uses_code use]
  | .cons (some temporary) e rest => by
    simp [BoundOperands.code, BoundOperands.uses, Code.uses, e.mem_uses_code use,
      rest.mem_uses_code use]

/-- The code of statements has their occurrences. -/
theorem BoundBody.mem_uses_code (use : String × Option ℕ) :
    ∀ body : BoundBody, use ∈ body.code.uses ↔ use ∈ body.uses
  | .nil => by simp [BoundBody.code, BoundBody.uses, Code.uses]
  | .declare x obj value rest | .throw obj value rest | .exec value rest
  | .assign id obj value rest => by
    simp [BoundBody.code, BoundBody.uses, Code.uses, value.mem_uses_code use,
      rest.mem_uses_code use]
  | .destructure temporary obj names value rest => by
    simp [BoundBody.code, BoundBody.uses, Code.uses, mem_uses_declareLocals,
      value.mem_uses_code use, rest.mem_uses_code use]
  | .block body rest => by
    simp [BoundBody.code, BoundBody.uses, Code.uses, body.mem_uses_code use,
      rest.mem_uses_code use]
  | .range index obj start stop step body rest => by
    simp only [BoundBody.code, BoundBody.uses, Code.uses, List.mem_append, start.mem_uses_code use,
      stop.mem_uses_code use, step.mem_uses_code use, body.mem_uses_code use,
      rest.mem_uses_code use, List.not_mem_nil]
    tauto
  | .loop kind as number obj arg body rest => by
    simp [BoundBody.code, BoundBody.uses, Code.uses, ArgLoop.mem_uses_code, arg.mem_uses_code use,
      body.mem_uses_code use, rest.mem_uses_code use, or_assoc]
  | .inPlace name number obj object args body rest => by
    simp [BoundBody.code, BoundBody.uses, Code.uses, mem_uses_inPlaceCode,
      object.mem_uses_code use, args.mem_uses_code use, body.mem_uses_code use,
      rest.mem_uses_code use, or_assoc]

end

/-! ### The declarations of the code -/

/-- A generated name differs from one with another text before it. -/
theorem generated_ne {before before' : String} (h : before ≠ before') (name : String) :
  before ++ name ≠ before' ++ name
  := by
  rwa [ne_eq, String.append_left_inj]

theorem declareLocals_apart_iff (rest : Code String) (names : List String) (obj : ℕ)
    (declared : List String) :
  ((declareLocals obj rest names).Hygienic ∧ (declareLocals obj rest names).Distinct declared) ↔
    (names.Nodup ∧ ∀ x ∈ names, x ∉ declared) ∧ ApartFrom rest.uses (names.zipIdx obj) ∧
      rest.Hygienic ∧ rest.Distinct (names.reverse ++ declared)
  := by
  induction names generalizing obj declared with
  | nil => simp [declareLocals, ApartFrom]
  | cons name names ih =>
    have hrest := ih (obj + 1) (name :: declared)
    simp only [declareLocals, Code.Hygienic, Code.Distinct, Code.uses, List.nil_append,
      mem_uses_declareLocals, List.zipIdx_cons, ApartFrom, List.forall_mem_cons, List.nodup_cons,
      List.reverse_cons, List.append_assoc, List.singleton_append] at hrest ⊢
    grind

theorem EachMethod.code_apart_iff (method : EachMethod) (number obj : ℕ)
    (object inner : Code String) :
  ((method.code number obj object inner).Hygienic ∧
      (method.code number obj object inner).Distinct []) ↔
    ApartFrom object.uses [("source_" ++ (method.names number).1, obj)] ∧
      ApartFrom inner.uses (method.declared number obj) ∧ (object.Hygienic ∧ object.Distinct []) ∧
      inner.Hygienic ∧ inner.Distinct [(method.names number).2]
  := by
  by_cases hmap : method = .map
  · simp [EachMethod.code, EachMethod.declared, hmap, Code.uses, Code.Hygienic, Code.Distinct,
      ApartFrom]
    grind
  · simp [EachMethod.code, EachMethod.declared, hmap, Code.uses, Code.Hygienic, Code.Distinct,
      ApartFrom]
    grind

theorem KeyMethod.code_apart_iff (method : KeyMethod) (number obj : ℕ) (object key : Code String)
    (hkey : ∀ declared, key.Distinct declared ↔ key.Distinct []) :
  ((method.code number obj object key).Hygienic ∧
      (method.code number obj object key).Distinct []) ↔
    ApartFrom object.uses [("source_" ++ (method.names number).1, obj)] ∧
      ApartFrom key.uses (method.declared number obj) ∧ (object.Hygienic ∧ object.Distinct []) ∧
      key.Hygienic ∧ key.Distinct []
  := by
  have hne {before name element : String} (h : before ++ name ≠ element) (s : String) :
      before ++ (name ++ s) ≠ element ++ s := by
    rw [← String.append_assoc]
    exact generated_ne h s
  let s := toString number
  cases method with
  | group =>
    have hgroup : "key_" ++ ("group" ++ "_i_" ++ s) ≠ "group" ++ "_e_" ++ s := hne (by decide) s
    simp [KeyMethod.code, KeyMethod.declared, KeyMethod.names, methodNames, Code.uses,
      Code.Hygienic, Code.Distinct, ApartFrom]
    grind
  | sort =>
    have hleft : "left_" ++ ("sort" ++ "_i_" ++ s) ≠ "sort" ++ "_e_" ++ s := hne (by decide) s
    have hright : "right_" ++ ("sort" ++ "_i_" ++ s) ≠ "sort" ++ "_e_" ++ s := hne (by decide) s
    simp [KeyMethod.code, KeyMethod.declared, KeyMethod.names, methodNames, Code.uses,
      Code.Hygienic, Code.Distinct, ApartFrom]
    grind

theorem ArgLoop.code_apart_iff (kind : ArgLoop) (as : Option String) (number obj : ℕ)
    (arg body : Code String) (harg : ∀ declared, arg.Distinct declared ↔ arg.Distinct []) :
  ((kind.code as number obj arg body).Hygienic ∧ (kind.code as number obj arg body).Distinct []) ↔
    ApartFrom (arg.uses ++ body.uses) (kind.around as number obj) ∧
      ApartFrom body.uses (kind.inside as number obj) ∧ (arg.Hygienic ∧ arg.Distinct []) ∧
      body.Hygienic ∧ body.Distinct ((kind.inside as number obj).map Prod.fst)
  := by
  have hinner := harg [elementName kind as number]
  cases kind <;>
    simp [ArgLoop.code, ArgLoop.around, ArgLoop.inside, Code.uses, Code.Hygienic, Code.Distinct,
      ApartFrom] at hinner ⊢ <;>
    grind

theorem inPlaceCode_apart_iff (name : String) (number obj : ℕ) (object inner : Code String) :
  ((inPlaceCode name number obj object inner).Hygienic ∧
      (inPlaceCode name number obj object inner).Distinct []) ↔
    ApartFrom object.uses [("target_" ++ (methodNames name number).1, obj)] ∧
      ApartFrom inner.uses (inPlaceDeclared name number obj) ∧
      (object.Hygienic ∧ object.Distinct []) ∧
      inner.Hygienic ∧ inner.Distinct [(methodNames name number).2]
  := by
  by_cases hfilt : name = "filt"
  · simp [inPlaceCode, inPlaceDeclared, hfilt, Code.uses, Code.Hygienic, Code.Distinct, ApartFrom]
    grind
  · simp [inPlaceCode, inPlaceDeclared, hfilt, Code.uses, Code.Hygienic, Code.Distinct, ApartFrom]
    grind

/-- The code of an expression declares nothing in the block around it. -/
theorem BoundExpr.distinct_code (e : BoundExpr) (declared : List String) :
  e.code.Distinct declared ↔ e.code.Distinct []
  := by
  cases e <;> simp [BoundExpr.code, Code.Distinct]

theorem apartFrom_singleton (uses : List (String × Option ℕ)) (decl : String × ℕ) :
  ApartFrom uses [decl] ↔ ∀ o, (decl.1, some o) ∈ uses → decl.2 ≤ o
  := by
  simp [ApartFrom]

/-- The same occurrences are apart from the same declarations. -/
theorem apartFrom_congr {uses : List (String × Option ℕ)} (uses' : List (String × Option ℕ))
    (h : ∀ use, use ∈ uses ↔ use ∈ uses') (decls : List (String × ℕ)) :
  ApartFrom uses decls ↔ ApartFrom uses' decls
  := by
  simp only [ApartFrom, h]

mutual

/-- The code of an expression is hygienic exactly when its declarations are apart. -/
theorem BoundExpr.code_apart_iff :
    ∀ (e : BoundExpr) (declared : List String),
      (e.code.Hygienic ∧ e.code.Distinct declared) ↔ e.Apart
  | .use id obj, declared => by simp [BoundExpr.code, BoundExpr.Apart, Code.Hygienic, Code.Distinct]
  | .node operands, declared => by
    rw [BoundExpr.Apart, ← operands.code_apart_iff []]
    simp [BoundExpr.code, Code.Hygienic, Code.Distinct]
  | .each method number obj object args body, declared => by
    rw [BoundExpr.Apart, ← object.code_apart_iff [], ← args.code_apart_iff [],
      ← body.code_apart_iff, ← apartFrom_congr _ (fun use => object.mem_uses_code use)]
    have hmethod := method.code_apart_iff number obj object.code (.block args.code body.code)
    simp only [Code.uses, Code.Hygienic, Code.Distinct] at hmethod
    have huses (use) : use ∈ args.code.uses ++ body.code.uses ↔ use ∈ args.uses ++ body.uses := by
      simp [args.mem_uses_code, body.mem_uses_code]
    rw [apartFrom_congr _ huses] at hmethod
    simp only [BoundExpr.code, Code.Hygienic, Code.Distinct]
    grind
  | .keyed method number obj object key, declared => by
    rw [BoundExpr.Apart, ← object.code_apart_iff [], ← key.code_apart_iff [],
      ← apartFrom_congr _ (fun use => object.mem_uses_code use),
      ← apartFrom_congr _ (fun use => key.mem_uses_code use)]
    have hmethod := method.code_apart_iff number obj object.code key.code key.distinct_code
    simp only [BoundExpr.code, Code.Hygienic, Code.Distinct]
    grind
  | .tap number obj object body, declared => by
    rw [BoundExpr.Apart, ← object.code_apart_iff [], ← body.code_apart_iff]
    simp only [BoundExpr.code, Code.Hygienic, Code.Distinct, apartFrom_singleton, List.mem_append,
      object.mem_uses_code, body.mem_uses_code]
    grind

/-- The code of operands is hygienic exactly when its declarations are apart. -/
theorem BoundOperands.code_apart_iff :
    ∀ (operands : BoundOperands) (declared : List String),
      (operands.code.Hygienic ∧ operands.code.Distinct declared) ↔ operands.Apart declared
  | .nil, declared => by
    simp [BoundOperands.code, BoundOperands.Apart, Code.Hygienic, Code.Distinct]
  | .cons none e rest, declared => by
    rw [BoundOperands.Apart, ← e.code_apart_iff [], ← rest.code_apart_iff declared]
    simp only [BoundOperands.code, Code.Hygienic, Code.Distinct]
    tauto
  | .cons (some temporary) e rest, declared => by
    rw [BoundOperands.Apart, ← e.code_apart_iff declared,
      ← rest.code_apart_iff (temporary.1 :: declared)]
    simp only [BoundOperands.code, Code.Hygienic, Code.Distinct, apartFrom_singleton,
      List.mem_append, e.mem_uses_code, rest.mem_uses_code]
    grind

/-- The code of statements is hygienic exactly when its declarations are apart. -/
theorem BoundBody.code_apart_iff :
    ∀ (body : BoundBody) (declared : List String),
      (body.code.Hygienic ∧ body.code.Distinct declared) ↔ body.Apart declared
  | .nil, declared => by simp [BoundBody.code, BoundBody.Apart, Code.Hygienic, Code.Distinct]
  | .declare x obj value rest, declared => by
    rw [BoundBody.Apart, ← value.code_apart_iff declared, ← rest.code_apart_iff (x :: declared)]
    simp only [BoundBody.code, Code.Hygienic, Code.Distinct, apartFrom_singleton, List.mem_append,
      value.mem_uses_code, rest.mem_uses_code]
    grind
  | .assign id obj value rest, declared => by
    rw [BoundBody.Apart, ← value.code_apart_iff [], ← rest.code_apart_iff declared]
    simp only [BoundBody.code, Code.Hygienic, Code.Distinct]
    tauto
  | .exec value rest, declared => by
    rw [BoundBody.Apart, ← value.code_apart_iff [], ← rest.code_apart_iff declared]
    simp only [BoundBody.code, Code.Hygienic, Code.Distinct]
    tauto
  | .destructure temporary obj names value rest, declared => by
    rw [BoundBody.Apart, ← value.code_apart_iff declared, ← rest.code_apart_iff]
    have hlocals := declareLocals_apart_iff rest.code names (obj + 1) (temporary :: declared)
    rw [apartFrom_congr _ (fun use => rest.mem_uses_code use)] at hlocals
    simp only [BoundBody.code, Code.Hygienic, Code.Distinct, apartFrom_singleton, List.mem_append,
      mem_uses_declareLocals, value.mem_uses_code, rest.mem_uses_code]
    grind
  | .throw obj value rest, declared => by
    rw [BoundBody.Apart, ← value.code_apart_iff [], ← rest.code_apart_iff declared]
    simp only [BoundBody.code, Code.Hygienic, Code.Distinct, apartFrom_singleton, List.mem_append,
      value.mem_uses_code, Code.uses]
    grind
  | .block body rest, declared => by
    rw [BoundBody.Apart, ← body.code_apart_iff [], ← rest.code_apart_iff declared]
    simp only [BoundBody.code, Code.Hygienic, Code.Distinct]
    tauto
  | .range index obj start stop step body rest, declared => by
    rw [BoundBody.Apart, ← start.code_apart_iff [], ← stop.code_apart_iff [],
      ← step.code_apart_iff [], ← body.code_apart_iff [], ← rest.code_apart_iff declared]
    simp only [BoundBody.code, Code.Hygienic, Code.Distinct, apartFrom_singleton,
      List.mem_append, Code.uses,
      start.mem_uses_code, stop.mem_uses_code, step.mem_uses_code, body.mem_uses_code]
    grind
  | .loop kind as number obj arg body rest, declared => by
    rw [BoundBody.Apart, ← arg.code_apart_iff [], ← body.code_apart_iff,
      ← rest.code_apart_iff declared]
    have hloop := kind.code_apart_iff as number obj arg.code body.code arg.distinct_code
    rw [apartFrom_congr _ (fun use => body.mem_uses_code use),
      apartFrom_congr (arg.uses ++ body.uses)
        (by simp [arg.mem_uses_code, body.mem_uses_code])] at hloop
    simp only [BoundBody.code, Code.Hygienic, Code.Distinct]
    grind
  | .inPlace name number obj object args body rest, declared => by
    rw [BoundBody.Apart, ← object.code_apart_iff [], ← args.code_apart_iff [],
      ← body.code_apart_iff, ← rest.code_apart_iff declared,
      ← apartFrom_congr _ (fun use => object.mem_uses_code use)]
    have hmethod := inPlaceCode_apart_iff name number obj object.code (.block args.code body.code)
    simp only [Code.uses, Code.Hygienic, Code.Distinct] at hmethod
    have huses (use) : use ∈ args.code.uses ++ body.code.uses ↔ use ∈ args.uses ++ body.uses := by
      simp [args.mem_uses_code, body.mem_uses_code]
    rw [apartFrom_congr _ huses] at hmethod
    simp only [BoundBody.code, Code.Hygienic, Code.Distinct]
    grind

end

end Caster
