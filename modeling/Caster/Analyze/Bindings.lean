import Caster.Library.BlockScope

/-!
# The names of function bodies

The part of a function body that matters for its names: where they stand, and what declares them.
The analyzer resolves each name in its scopes and leaves at it the C identifier of the symbol, with
the object that is declared for the symbol in C.
-/

namespace Caster

open BlockScope

/-! ### Syntax -/

/-- The methods that run a body or an expression for each element. -/
inductive EachMethod where
  /-- `upd`, `filt`, `agg` or `any` of an array. -/
  | array (name : String)
  /-- One of these of a string. -/
  | str (name : String)
  /-- `agg` of a map. -/
  | map
deriving DecidableEq

/-- The methods of arrays that evaluate a key for each element. -/
inductive KeyMethod where
  | group
  | sort
deriving DecidableEq

/-- The loops over one argument. -/
inductive ArgLoop where
  | count
  | condition
  | array
  | str
  /-- Over a map, open or not. -/
  | map
deriving DecidableEq

mutual

/-- An expression as far as its names go. -/
inductive BodyExpr where
  | name (x : String)
  /-- The name of a function of the program, in a call. -/
  | function (x : String)
  /-- The dot `x.i`. -/
  | dotI (x : String)
  /-- The dot `x.e`. -/
  | dotE (x : String)
  /-- Any other expression, with its operands. -/
  | node (operands : Operands)
  | each (method : EachMethod) (as : Option String) (object : BodyExpr) (args : Operands)
      (body : Body)
  | keyed (method : KeyMethod) (as : Option String) (object key : BodyExpr)
  | tap (as : String) (object : BodyExpr) (body : Body)

/-- The operands of an expression, each with the temporary that it initialises in the C expression,
if there is one. -/
inductive Operands where
  | nil
  | cons (temporary : Option String) (e : BodyExpr) (rest : Operands)

/-- The statements of a block.  An `if` is given by its conditions and its blocks. -/
inductive Body where
  | nil
  | var (x : String) (value : BodyExpr) (rest : Body)
  /-- The assignment `x = value`, which declares `x` when there is no such symbol. -/
  | assign (x : String) (value : BodyExpr) (rest : Body)
  /-- Any other assignment, and an expression. -/
  | exec (e : BodyExpr) (rest : Body)
  | destructure (temporary : String) (names : List String) (value : BodyExpr) (rest : Body)
  /-- A returned value, which is kept in a temporary. -/
  | ret (temporary : String) (value : BodyExpr) (rest : Body)
  | throw (value : BodyExpr) (rest : Body)
  | block (body rest : Body)
  | range (start stop step : BodyExpr) (as : Option String) (body rest : Body)
  | loop (kind : ArgLoop) (arg : BodyExpr) (as : Option String) (body rest : Body)
  /-- The statement `*xs.upd(..)` or `*xs.filt(..)`. -/
  | inPlace (name : String) (as : Option String) (object : BodyExpr) (args : Operands)
      (body rest : Body)
  /-- A nested function, with the name of its C function. -/
  | fn (name cName : String) (rest : Body)

end

/-! ### Symbols -/

/-- A symbol as far as its names go: the identifier that is printed for it and its object, and those
of its parts `.i` and `.e`, if it is a loop context.  There may be no object. -/
structure BoundSymbol where
  name : String
  ident : String
  obj : Option ℕ
  index : Option (String × Option ℕ)
  element : Option (String × Option ℕ)
  minDepth : ℕ

/-- A symbol without parts. -/
def BoundSymbol.plain (name ident : String) (obj : Option ℕ) : BoundSymbol :=
  { name := name, ident := ident, obj := obj, index := none, element := none, minDepth := 0 }

/-- The symbols of a scope. -/
abbrev Symbols := List BoundSymbol

/-- The innermost symbol of a name. -/
def resolveSymbol : List Symbols → String → Option BoundSymbol
  | [], _ => none
  | symbols :: scopes, x => (symbols.find? fun sym => sym.name = x).or (resolveSymbol scopes x)

/-- A symbol is defined in a scope that has none of its name. -/
def defineSymbol (symbols : Symbols) (sym : BoundSymbol) : Option Symbols :=
  if symbols.any fun other => other.name = sym.name then none else some (sym :: symbols)

/-- Locals are defined one after the other, for objects from a number on. -/
def defineLocals (symbols : Symbols) (obj : ℕ) : List String → Option Symbols
  | [] => some symbols
  | name :: names => do
    let symbols ← defineSymbol symbols (.plain name name (some obj))
    defineLocals symbols (obj + 1) names

/-- A name that a method or a loop gives to its element or its index. -/
def isImplicitName (name : String) : Bool := name = "e" || name = "i" || name = "val"

/-- The alias of a method's element, unless the name is taken. -/
def defineAlias (symbols : Symbols) (as : Option String) (ident : String) (obj : ℕ) : Symbols :=
  match as with
  | some name =>
    if name = "" || isImplicitName name then symbols
    else (defineSymbol symbols (.plain name ident (some obj))).getD symbols
  | none => symbols

/-- The context that a loop's name stands for.  The name itself has no object. -/
def defineContext (symbols : Symbols) (as : Option String) (index : String × ℕ)
    (element : Option (String × ℕ)) : Option Symbols :=
  match as with
  | some name =>
    defineSymbol symbols
      { name := name, ident := name, obj := none, index := some (index.1, some index.2)
        element := element.map fun element => (element.1, some element.2), minDepth := 0 }
  | none => some symbols

/-- The name of an array that is looped over is a context too, in the loops inside. -/
def defineSource (symbols : Symbols) (scopes : List Symbols) (arg : BodyExpr)
    (index element : String × ℕ) (depth : ℕ) : Symbols :=
  match arg with
  | .name x =>
    if isImplicitName x then symbols
    else
      match resolveSymbol scopes x with
      | some base =>
        (defineSymbol symbols
          { base with
            name := x, index := some (index.1, some index.2)
            element := some (element.1, some element.2), minDepth := depth + 2 }).getD symbols
      | none => symbols
  | _ => symbols

/-! ### Generated names -/

/-- The name of the index of a loop. -/
def indexName (as : Option String) (number : ℕ) : String :=
  match as with
  | some name => name ++ "_i"
  | none => "loop_i_" ++ toString number

/-- The name of the element of a loop. -/
def elementName (kind : ArgLoop) (as : Option String) (number : ℕ) : String :=
  match kind, as with
  | .array, some name => name ++ "_e"
  | .array, none => "loop_e_" ++ toString number
  | .str, _ => "char_" ++ toString number
  | _, _ => "entry_" ++ toString number

/-- The names of the index and of the element of a method. -/
def methodNames (name : String) (number : ℕ) : String × String :=
  (name ++ "_i_" ++ toString number, name ++ "_e_" ++ toString number)

/-- The names of the index and of the element of a method that runs for each element. -/
def EachMethod.names (method : EachMethod) (number : ℕ) : String × String :=
  match method with
  | .array name | .str name => methodNames name number
  | .map => ("agg_i_" ++ toString number, "entry_" ++ toString number)

/-- The names of the index and of the element of a method with a key. -/
def KeyMethod.names (method : KeyMethod) (number : ℕ) : String × String :=
  match method with
  | .group => methodNames "group" number
  | .sort => methodNames "sort" number

/-- The name of the source of a `tap`.  The number before is taken by a scope that is not used. -/
def tapName (number : ℕ) : String := "source_tap_" ++ toString (number + 1)

/-! ### Scopes of loops and methods -/

/-- The symbols of a loop over one argument, whose index and element are given. -/
def loopSymbols (kind : ArgLoop) (scopes : List Symbols) (arg : BodyExpr) (as : Option String)
    (index element : String × ℕ) (depth : ℕ) : Option Symbols :=
  let i := BoundSymbol.plain "i" index.1 (some index.2)
  match kind with
  | .count => defineContext [.plain "e" index.1 (some index.2), i] as index (some index)
  | .condition => defineContext [i] as index none
  | .array => do
    let symbols ← defineContext [.plain "e" element.1 (some element.2), i] as index (some element)
    some (defineSource symbols scopes arg index element depth)
  | .str => if as.isSome then none else some [.plain "e" element.1 (some element.2), i]
  | .map =>
    if as.isSome then none
    else some [.plain "val" element.1 (some element.2), .plain "e" element.1 (some element.2), i]

/-- The symbols of a method that runs for each element, whose index and element are given. -/
def EachMethod.symbols (method : EachMethod) (as : Option String) (index element : String × ℕ) :
    Symbols :=
  let i := BoundSymbol.plain "i" index.1 (some index.2)
  let e := BoundSymbol.plain "e" element.1 (some element.2)
  match method with
  | .map => defineAlias [.plain "val" element.1 (some element.2), e, i] as element.1 element.2
  | _ => defineAlias [e, i] as element.1 element.2

/-- The symbols of a method with a key, whose index and element are given.  The index of `sort` has
no object. -/
def KeyMethod.symbols (method : KeyMethod) (as : Option String) (index element : String × ℕ) :
    Symbols :=
  let i := BoundSymbol.plain "i" index.1 (if method = .sort then none else some index.2)
  defineAlias [.plain "e" element.1 (some element.2), i] as element.1 element.2

/-! ### Resolved bodies -/

mutual

/-- An expression whose names are resolved to identifiers and objects. -/
inductive BoundExpr where
  | use (id : String) (obj : Option ℕ)
  | node (operands : BoundOperands)
  | each (method : EachMethod) (number obj : ℕ) (object : BoundExpr) (args : BoundOperands)
      (body : BoundBody)
  | keyed (method : KeyMethod) (number obj : ℕ) (object key : BoundExpr)
  | tap (number obj : ℕ) (object : BoundExpr) (body : BoundBody)

/-- Operands whose names are resolved. -/
inductive BoundOperands where
  | nil
  | cons (temporary : Option (String × ℕ)) (e : BoundExpr) (rest : BoundOperands)

/-- Statements whose names are resolved.  Objects are taken from the numbers that they have. -/
inductive BoundBody where
  | nil
  /-- A declaration of a local or of a temporary. -/
  | declare (x : String) (obj : ℕ) (value : BoundExpr) (rest : BoundBody)
  | assign (id : String) (obj : Option ℕ) (value : BoundExpr) (rest : BoundBody)
  | exec (e : BoundExpr) (rest : BoundBody)
  | destructure (temporary : String) (obj : ℕ) (names : List String) (value : BoundExpr)
      (rest : BoundBody)
  | throw (obj : ℕ) (value : BoundExpr) (rest : BoundBody)
  | block (body rest : BoundBody)
  | range (index : String) (obj : ℕ) (start stop step : BoundExpr) (body rest : BoundBody)
  | loop (kind : ArgLoop) (as : Option String) (number obj : ℕ) (arg : BoundExpr)
      (body rest : BoundBody)
  | inPlace (name : String) (number obj : ℕ) (object : BoundExpr) (args : BoundOperands)
      (body rest : BoundBody)

end

/-! ### Resolution -/

/-- What the analyzer keeps on its way: the next loop number, the next object, and the symbols whose
identifiers it has changed. -/
structure Progress where
  loops : ℕ
  objs : ℕ
  renamed : List ((String × Option ℕ) × String)

/-- Objects are taken from the next one on. -/
def Progress.take (k : Progress) (n : ℕ) : Progress := { k with objs := k.objs + n }

/-- Loop numbers are taken from the next one on. -/
def Progress.number (k : Progress) (n : ℕ) : Progress := { k with loops := k.loops + n }

/-- What is printed for a symbol.  An identifier that was changed is none of its object. -/
def Progress.printed (k : Progress) (sym : BoundSymbol) : String × Option ℕ :=
  match k.renamed.find? fun entry => entry.1 = (sym.name, sym.obj) with
  | some entry => (entry.2, none)
  | none => (sym.ident, sym.obj)

/-- A method of a string gives the identifier of its element to the symbol of its alias, which may be
a symbol from outside. -/
def Progress.rename (k : Progress) (method : EachMethod) (scopes : List Symbols)
    (as : Option String) (element : String) : Option Progress :=
  match method, as with
  | .str _, some name => do
    let sym ← resolveSymbol scopes name
    if sym.ident = element then some k
    else some { k with renamed := ((sym.name, sym.obj), element) :: k.renamed }
  | _, _ => some k

section

-- the objects of the file, with their C names
variable (file : List (String × ℕ))

/-- The nested functions of a block. -/
def functionSymbols (symbols : Symbols) : Body → Option Symbols
  | .nil => some symbols
  | .var _ _ rest | .assign _ _ rest | .exec _ rest | .destructure _ _ _ rest | .ret _ _ rest
  | .throw _ rest | .block _ rest | .range _ _ _ _ _ rest | .loop _ _ _ _ rest
  | .inPlace _ _ _ _ _ rest => functionSymbols symbols rest
  | .fn name cName rest => do
    let obj ← lookup file cName
    let symbols ← defineSymbol symbols (.plain name cName (some obj))
    functionSymbols symbols rest

/-- An occurrence of a name, which stands for a symbol or else for a named value of the file. -/
def bindName (scopes : List Symbols) (x : String) (k : Progress) : Option BoundExpr :=
  match resolveSymbol scopes x with
  | some sym => some (.use (k.printed sym).1 (k.printed sym).2)
  | none => (lookup file ("flx_named_" ++ x)).map fun obj => .use ("flx_named_" ++ x) (some obj)

/-- A part of a loop context, or a field of another value. -/
def bindPart (scopes : List Symbols) (depth : ℕ) (x : String)
    (part : BoundSymbol → Option (String × Option ℕ)) (k : Progress) : Option BoundExpr :=
  match resolveSymbol scopes x with
  | some sym =>
    if sym.index.isSome || sym.element.isSome then
      if depth < sym.minDepth then none else (part sym).map fun part => .use part.1 part.2
    else bindName file scopes x k
  | none => bindName file scopes x k

mutual

/-- An expression is resolved in the scopes around it. -/
def bindExpr (scopes : List Symbols) (depth : ℕ) : BodyExpr → Progress → Option (BoundExpr × Progress)
  | .name x, k => (bindName file scopes x k).map fun e => (e, k)
  | .function x, k => (lookup file x).map fun obj => (.use x (some obj), k)
  | .dotI x, k => (bindPart file scopes depth x BoundSymbol.index k).map fun e => (e, k)
  | .dotE x, k => (bindPart file scopes depth x BoundSymbol.element k).map fun e => (e, k)
  | .node operands, k => do
    let (operands, k) ← bindOperands scopes depth operands k
    some (.node operands, k)
  | .each method as object args body, k => do
    let obj := k.objs
    let (object, k) ← bindExpr scopes depth object (k.take 6)
    let number := k.loops
    let (index, element) := method.names number
    let symbols := method.symbols as (index, obj + 4) (element, obj + 5)
    let k ← (k.number 1).rename method (symbols :: scopes) as element
    let (args, k) ← bindOperands (symbols :: scopes) depth args k
    let inner ← functionSymbols file [] body
    let (body, k) ← bindBody inner (symbols :: scopes) depth body k
    some (.each method number obj object args body, k)
  | .keyed method as object key, k => do
    let obj := k.objs
    let (object, k) ← bindExpr scopes depth object (k.take 8)
    let number := k.loops
    let (index, element) := method.names number
    let symbols := method.symbols as (index, obj + 4) (element, obj + 5)
    let (key, k) ← bindExpr (symbols :: scopes) depth key (k.number 1)
    some (.keyed method number obj object key, k)
  | .tap as object body, k => do
    let obj := k.objs
    let (object, k) ← bindExpr scopes depth object (k.take 1)
    let number := k.loops
    let (body, k) ← bindBody [.plain as (tapName number) (some obj)] scopes depth body (k.number 2)
    some (.tap number obj object body, k)

/-- Operands are resolved one after the other. -/
def bindOperands (scopes : List Symbols) (depth : ℕ) :
    Operands → Progress → Option (BoundOperands × Progress)
  | .nil, k => some (.nil, k)
  | .cons temporary e rest, k => do
    let obj := k.objs
    let (e, k) ← bindExpr scopes depth e (k.take 1)
    let (rest, k) ← bindOperands scopes depth rest k
    some (.cons (temporary.map fun name => (name, obj)) e rest, k)

/-- Statements are resolved in a scope, which they extend, and those around it. -/
def bindBody (symbols : Symbols) (scopes : List Symbols) (depth : ℕ) :
    Body → Progress → Option (BoundBody × Progress)
  | .nil, k => some (.nil, k)
  | .var x value rest, k => do
    let obj := k.objs
    let (value, k) ← bindExpr (symbols :: scopes) depth value (k.take 1)
    let symbols ← defineSymbol symbols (.plain x x (some obj))
    let (rest, k) ← bindBody symbols scopes depth rest k
    some (.declare x obj value rest, k)
  | .assign x value rest, k =>
    match resolveSymbol (symbols :: scopes) x with
    | some sym => do
      let target := k.printed sym
      let (value, k) ← bindExpr (symbols :: scopes) depth value k
      let (rest, k) ← bindBody symbols scopes depth rest k
      some (.assign target.1 target.2 value rest, k)
    | none => do
      let obj := k.objs
      let (value, k) ← bindExpr (symbols :: scopes) depth value (k.take 1)
      let symbols ← defineSymbol symbols (.plain x x (some obj))
      let (rest, k) ← bindBody symbols scopes depth rest k
      some (.declare x obj value rest, k)
  | .exec e rest, k => do
    let (e, k) ← bindExpr (symbols :: scopes) depth e k
    let (rest, k) ← bindBody symbols scopes depth rest k
    some (.exec e rest, k)
  | .destructure temporary names value rest, k => do
    let obj := k.objs
    let (value, k) ← bindExpr (symbols :: scopes) depth value (k.take (1 + names.length))
    let symbols ← defineLocals symbols (obj + 1) names
    let (rest, k) ← bindBody symbols scopes depth rest k
    some (.destructure temporary obj names value rest, k)
  | .ret temporary value rest, k => do
    let obj := k.objs
    let (value, k) ← bindExpr (symbols :: scopes) depth value (k.take 1)
    let (rest, k) ← bindBody symbols scopes depth rest k
    some (.declare temporary obj value rest, k)
  | .throw value rest, k => do
    let obj := k.objs
    let (value, k) ← bindExpr (symbols :: scopes) depth value (k.take 1)
    let (rest, k) ← bindBody symbols scopes depth rest k
    some (.throw obj value rest, k)
  | .block body rest, k => do
    let inner ← functionSymbols file [] body
    let (body, k) ← bindBody inner (symbols :: scopes) depth body k
    let (rest, k) ← bindBody symbols scopes depth rest k
    some (.block body rest, k)
  | .range start stop step as body rest, k => do
    let obj := k.objs
    let (start, k) ← bindExpr (symbols :: scopes) depth start (k.take 1)
    let (stop, k) ← bindExpr (symbols :: scopes) depth stop k
    let (step, k) ← bindExpr (symbols :: scopes) depth step k
    let index := (indexName as k.loops, obj)
    let names ← defineContext [.plain "e" index.1 (some obj), .plain "i" index.1 (some obj)] as index
      (some index)
    let inner ← functionSymbols file [] body
    let (body, k) ← bindBody inner (names :: symbols :: scopes) (depth + 1) body (k.number 1)
    let (rest, k) ← bindBody symbols scopes depth rest k
    some (.range index.1 obj start stop step body rest, k)
  | .loop kind source as body rest, k => do
    let obj := k.objs
    let (arg, k) ← bindExpr (symbols :: scopes) depth source (k.take 4)
    let number := k.loops
    let index := (indexName as number, obj + 2)
    let element := (elementName kind as number, obj + 3)
    let names ← loopSymbols kind (symbols :: scopes) source as index element depth
    let inner ← functionSymbols file [] body
    let (body, k) ← bindBody inner (names :: symbols :: scopes) (depth + 1) body (k.number 1)
    let (rest, k) ← bindBody symbols scopes depth rest k
    some (.loop kind as number obj arg body rest, k)
  | .inPlace name as object args body rest, k => do
    let obj := k.objs
    let (object, k) ← bindExpr (symbols :: scopes) depth object (k.take 4)
    let number := k.loops
    let (index, element) := methodNames name number
    let names := (EachMethod.array name).symbols as (index, obj + 2) (element, obj + 3)
    let (args, k) ← bindOperands (names :: symbols :: scopes) depth args (k.number 1)
    let inner ← functionSymbols file [] body
    let (body, k) ← bindBody inner (names :: symbols :: scopes) depth body k
    let (rest, k) ← bindBody symbols scopes depth rest k
    some (.inPlace name number obj object args body rest, k)
  | .fn _ _ rest, k => bindBody symbols scopes depth rest k

end

end

/-! ### Functions -/

/-- A function in a file: the objects of the file, the global variables, the parameters and the
body. -/
structure BoundFunction where
  /-- The C names of the objects of the file, no two of which are the same. -/
  objects : List String
  nodup : objects.Nodup
  globals : List String
  params : List String
  body : Body
  /-- The identifiers of global variables that the analysis of other functions has changed. -/
  renamed : List ((String × Option ℕ) × String)

/-- The objects of the file, with their numbers. -/
def BoundFunction.file (f : BoundFunction) : List (String × ℕ) := f.objects.zipIdx

/-- The global variables. -/
def globalSymbols (file : List (String × ℕ)) : List String → Option Symbols
  | [] => some []
  | name :: names => do
    let symbols ← globalSymbols file names
    let obj ← lookup file ("global_" ++ name)
    defineSymbol symbols (.plain name ("global_" ++ name) (some obj))

/-- The body of a function with its names resolved.  The parameters have objects after those of the
file. -/
def BoundFunction.bind (f : BoundFunction) : Option BoundBody := do
  let globals ← globalSymbols f.file f.globals
  let obj := f.objects.length
  let params ← defineLocals [] obj f.params
  let inner ← functionSymbols f.file [] f.body
  let (body, _) ← bindBody f.file inner [params, globals] 0 f.body
    ⟨1, obj + f.params.length, f.renamed⟩
  some body

end Caster
