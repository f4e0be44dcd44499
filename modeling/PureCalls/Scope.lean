import PureCalls.Tree

/-!
Which binding an identifier denotes. Every scope has a number, and an identifier gets the number of the innermost
scope around it that declares its name.
-/
namespace PureCalls.Scope

mutual

/-- The names that a pattern binds. -/
def patternNames : Tree → List String
  | .node kind _ fields =>
    if kind = .identifier then
      match Tree.lookup .value fields with
      | .text name => [name]
      | _ => []
    else if kind = .rest then namesAt .argument fields
    else if kind = .defaultPattern then namesAt .left fields
    else if kind = .arrayPattern then namesAt .elements fields
    else if kind = .objectPattern then namesAt .properties fields
    else if kind = .defaultPatternProperty then namesAt .key fields
    else if kind = .keyValuePattern then namesAt .value fields
    else if kind = .parameter then namesAt .pat fields
    else if kind = .parameterProperty then namesAt .param fields
    else if kind = .variableDeclaration || kind = .usingDeclaration then namesAt .declarations fields
    else if kind = .declarator then namesAt .id fields
    else []
  | .list items => patternNamesOfItems items
  | _ => []

def patternNamesOfItems : List Tree → List String
  | [] => []
  | t :: rest => patternNames t ++ patternNamesOfItems rest

/-- The names that the value of a field binds. -/
def namesAt (f : Field) : List (Field × Tree) → List String
  | [] => []
  | (g, t) :: rest => if g = f then patternNames t else namesAt f rest

end

/-- Whether a node has variables of its own. -/
private def isFunctionLike (kind : Kind) : Bool :=
  kind = .function || kind = .functionDeclaration || kind = .arrow || kind = .classDeclaration ||
    kind = .classExpression || kind = .method || kind = .getter || kind = .setter || kind = .namespaceDeclaration

mutual

/-- The names declared with `var` anywhere in a tree, functions inside it apart. -/
def varNames : Tree → List String
  | .node kind span fields =>
    if kind = .variableDeclaration && Tree.lookup .kind fields == .text "var" then
      patternNames (.node kind span fields) ++ varNamesOfFields fields
    else if isFunctionLike kind then []
    else varNamesOfFields fields
  | .list items => varNamesOfItems items
  | _ => []

def varNamesOfItems : List Tree → List String
  | [] => []
  | t :: rest => varNames t ++ varNamesOfItems rest

def varNamesOfFields : List (Field × Tree) → List String
  | [] => []
  | (_, t) :: rest => varNames t ++ varNamesOfFields rest

end

private def nameOf (t : Tree) : List String :=
  match t.field .value with
  | .text name => [name]
  | _ => []

/-- The names that a statement declares for the block around it. -/
private def ownNames (t : Tree) : List String :=
  match t.kind? with
  | some .variableDeclaration => if t.field .kind == .text "var" then [] else patternNames t
  | some .usingDeclaration => patternNames t
  | some .functionDeclaration | some .classDeclaration => nameOf (t.field .identifier)
  | some .enum | some .namespaceDeclaration | some .importEquals => nameOf (t.field .id)
  | some .importDeclaration => (t.field .specifiers).items.flatMap fun s => nameOf (s.field .localName)
  | some .exportDefaultDeclaration => nameOf ((t.field .declared).field .identifier)
  | _ => []

/-- The names that statements declare for the block around them. -/
def blockNames (items : List Tree) : List String :=
  items.flatMap fun t => if t.isKind .exportDeclaration then ownNames (t.field .declaration) else ownNames t

/-- The names that are declared at one level of a program, with the number that it has. -/
structure Frame where
  number : Int
  names : List String
  deriving Repr, Inhabited

/-- The scopes around a place, the innermost first. -/
abbrev Scopes := List Frame

/-- The number of names that no scope declares. -/
def unresolved : Int := 1

/-- The number of the outermost scope. -/
def outermost : Int := 2

/-- The scope that a name belongs to. -/
def find (name : String) : Scopes → Int
  | [] => unresolved
  | scope :: rest => if scope.names.contains name then scope.number else find name rest

private def declare (names : List String) : Scopes → Scopes
  | [] => []
  | scope :: rest => { scope with names := names ++ scope.names } :: rest

/-- A reading that hands out the numbers of scopes. -/
abbrev Numbering := StateM Int

private def open_ (names : List String) (scopes : Scopes) : Numbering Scopes := fun n =>
  (⟨n, names⟩ :: scopes, n + 1)

/-- The scopes in which each field of a node is read. -/
private def scopesOf (ownName : Bool) (kind : Kind) (fields : List (Field × Tree)) (scopes : Scopes) :
    Numbering (Field → Scopes) := do
  let at_ (f : Field) := Tree.lookup f fields
  let isFunction := kind = .functionDeclaration || kind = .function || kind = .arrow || kind = .method ||
    kind = .getter || kind = .setter || kind = .classConstructor || (kind = .plain && !(at_ .params).isNull)
  if isFunction then
    let outer ← if kind = .function && ownName then open_ (nameOf (at_ .identifier)) scopes else pure scopes
    let params := patternNames (at_ .params) ++ patternNames (at_ .param)
    let forParams ← open_ params outer
    let forBody := declare (varNames (at_ .body)) forParams
    return fun f =>
      if f = .body then forBody else if f = .params || f = .param then forParams else scopes
  else if kind = .block then
    let inner ← open_ (blockNames (at_ .stmts).items) scopes
    return fun _ => inner
  else if kind = .staticBlock then
    let inner ← open_ (varNames (at_ .body)) scopes
    return fun _ => inner
  else if kind = .catchClause then
    let inner ← open_ (patternNames (at_ .param)) scopes
    return fun _ => inner
  else if kind = .forLoop || kind = .forIn || kind = .forOf then
    let head := if kind = .forLoop then at_ .init else at_ .left
    let names := if (head.isKind .variableDeclaration && head.field .kind != .text "var") || head.isKind .usingDeclaration then
      patternNames head else []
    let inner ← open_ names scopes
    return fun _ => inner
  else if kind = .switch then
    let inner ← open_ [] scopes
    return fun f => if f = .cases then inner else scopes
  else if kind = .classExpression then
    let inner ← open_ (if ownName then nameOf (at_ .identifier) else []) scopes
    return fun f => if f = .superClass then scopes else inner
  else if kind = .namespaceBlock then
    let items := (at_ .body).items
    let inner ← open_ (varNames (at_ .body) ++ blockNames items) scopes
    return fun _ => inner
  else if kind = .nestedNamespace then
    let inner ← open_ (nameOf (at_ .id)) scopes
    return fun _ => inner
  else if kind = .enum then
    let names := (at_ .members).items.flatMap fun m =>
      if (m.field .id).isKind .identifier then nameOf (m.field .id) else []
    let inner ← open_ names scopes
    return fun f => if f = .members then inner else scopes
  else return fun _ => scopes

mutual

/-- Numbers all identifiers of a tree. -/
def resolve (ownName : Bool) (scopes : Scopes) : Tree → Numbering Tree
  | .node kind span fields => do
    let inner ← scopesOf ownName kind fields scopes
    let fields ← resolveFields (kind ≠ .exportDefaultDeclaration) inner fields
    if kind = .identifier then
      match Tree.lookup .value fields with
      | .text name => return .node kind span ((.ctxt, .number (find name scopes) 0) :: fields)
      | _ => return .node kind span fields
    else return .node kind span fields
  | .list items => do return .list (← resolveItems scopes items)
  | t => return t

/-- Numbers the identifiers of items one after the other. The cases of a switch share a scope, in which a name is
declared from its case on. -/
def resolveItems (scopes : Scopes) : List Tree → Numbering (List Tree)
  | [] => return []
  | t :: rest => do
    let scopes := if t.isKind .switchCase then declare (blockNames (t.field .consequent).items) scopes else scopes
    let t ← resolve true scopes t
    return t :: (← resolveItems scopes rest)

def resolveFields (ownName : Bool) (scopes : Field → Scopes) : List (Field × Tree) → Numbering (List (Field × Tree))
  | [] => return []
  | (f, t) :: rest => do
    let t ← resolve ownName (scopes f) t
    return (f, t) :: (← resolveFields ownName scopes rest)

end

/-- The program with a number for every identifier. -/
def resolveProgram (program : Tree) : Tree :=
  let items := (program.field .body).items
  let top : Scopes := [⟨outermost, varNames (program.field .body) ++ blockNames items⟩]
  ((resolve true top program).run (outermost + 1)).1

end PureCalls.Scope
