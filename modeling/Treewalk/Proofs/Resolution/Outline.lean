import Treewalk.Proofs.Resolution.Identities
/-!
# The outline of a program

The outline keeps of a program what matters to names: its regions, nested as they are in the text, and
in each of them, in the order of the text, what is declared and what refers to something. A site is a
place in the outline together with the regions around it, each with what stands in it in front of the
place.

What a name means at a site, and what is wrong there, is read off these regions alone
(`Site.resolved?`, `Site.faults`).
-/

namespace Treewalk

/-- A part of a program that matters to what is inside of it. -/
inductive Region where
  | program
  | block
  | function
  | method (name : Token)
  /-- The initial value of a variable. -/
  | initializer (name : Token)
  /-- A class from its superclass on. -/
  | class (hasSuperclass : Bool)
  /-- The methods of a class with a superclass. -/
  | super
  /-- The methods of a class. -/
  | this

/-- What stands in a region. -/
inductive Entry where
  /-- A variable, a function, a class or a parameter is declared. -/
  | declaration (name : Token)
  /-- A name that a region has of itself. -/
  | implicit (name : String)
  /-- A reference or a call. -/
  | expression (e : Expr)
  | return (keyword : Token) (hasValue : Bool)
  | superclass (className : Token) (superclass : Expr)
  | region (sort : Region) (entries : List Entry)

/-! ### Outlines -/

mutual

def Expr.outline : Expr → List Entry
  | .literal _ => []
  | .grouping inner => inner.outline
  | .unary _ operand => operand.outline
  | .binary left _ right => left.outline ++ right.outline
  | .logical left _ right => left.outline ++ right.outline
  | .variable node name => [.expression (.variable node name)]
  | .assign node name value => value.outline ++ [.expression (.assign node name value)]
  | .call callee closing arguments =>
    .expression (.call callee closing arguments) :: callee.outline ++ Expr.outlineOfAll arguments
  | .get object _ => object.outline
  | .set object _ value => value.outline ++ object.outline
  | .this node keyword => [.expression (.this node keyword)]
  | .super node keyword method => [.expression (.super node keyword method)]

def Expr.outlineOfAll : List Expr → List Entry
  | [] => []
  | e :: rest => e.outline ++ Expr.outlineOfAll rest

end

mutual

/-- A function's or a class's own name stands in front of its body, a variable's in front of its
initial value. -/
def Stmt.outline : Stmt → List Entry
  | .expression e => e.outline
  | .print e => e.outline
  | .var name none => [.declaration name]
  | .var name (some e) => [.declaration name, .region (.initializer name) e.outline]
  | .block body => [.region .block (Stmt.outlineOfAll body)]
  | .if condition consequent none => condition.outline ++ consequent.outline
  | .if condition consequent (some alternative) =>
    condition.outline ++ consequent.outline ++ alternative.outline
  | .while condition body => condition.outline ++ body.outline
  | .function f => [.declaration f.name, .region .function f.outline]
  | .return keyword none => [.return keyword false]
  | .return keyword (some e) => .return keyword true :: e.outline
  | .class name none methods =>
    [.declaration name,
      .region (.class false) [.region .this (.implicit "this" :: Stmt.outlineOfMethods methods)]]
  | .class name (some superclass) methods =>
    [.declaration name,
      .region (.class true) (.superclass name superclass :: superclass.outline ++
        [.region .super [.implicit "super",
          .region .this (.implicit "this" :: Stmt.outlineOfMethods methods)]])]

def Stmt.outlineOfAll : List Stmt → List Entry
  | [] => []
  | s :: rest => s.outline ++ Stmt.outlineOfAll rest

/-- One region has the parameters and what the body declares. -/
def FunctionDecl.outline : FunctionDecl → List Entry
  | ⟨_, parameters, body⟩ => parameters.map .declaration ++ Stmt.outlineOfAll body

def Stmt.outlineOfMethods : List FunctionDecl → List Entry
  | [] => []
  | m :: rest => .region (.method m.name) m.outline :: Stmt.outlineOfMethods rest

end

/-! ### Sites -/

/-- A region around a place, with what stands in it in front of the place. -/
structure Frame where
  sort : Region
  before : List Entry

/-- The regions around a place, innermost first. -/
abbrev Surroundings := List Frame

structure Site where
  entry : Entry
  around : Surroundings

mutual

/-- The sites in an entry, in the order of the text. -/
def Entry.sites (around : Surroundings) : Entry → List Site
  | .declaration name => [⟨.declaration name, around⟩]
  | .implicit name => [⟨.implicit name, around⟩]
  | .expression e => [⟨.expression e, around⟩]
  | .return keyword hasValue => [⟨.return keyword hasValue, around⟩]
  | .superclass name e => [⟨.superclass name e, around⟩]
  | .region sort entries => Entry.sitesOfAll sort around [] entries

/-- The sites in what stands in a region behind `before`. -/
def Entry.sitesOfAll (sort : Region) (outer : Surroundings) (before : List Entry) :
    List Entry → List Site
  | [] => []
  | entry :: rest =>
    entry.sites (⟨sort, before⟩ :: outer) ++
      Entry.sitesOfAll sort outer (before ++ [entry]) rest

end

/-- The sites of a program, in the order of the text. -/
def Site.all (p : List Stmt) : List Site :=
  Entry.sitesOfAll .program [] [] (Stmt.outlineOfAll p)

/-! ### What surrounds a place -/

/-- The regions that have names of their own. The outermost level of a program has none. -/
def Region.isScope : Region → Bool
  | .block | .function | .method _ | .super | .this => true
  | .program | .initializer _ | .class _ => false

/-- The name that is there from the entry on. -/
def Entry.name? : Entry → Option String
  | .declaration name => some name.lexeme
  | .implicit name => some name
  | .expression _ | .return _ _ | .superclass _ _ | .region _ _ => none

/-- The name is declared in front of the place. -/
def Frame.Declares (f : Frame) (x : String) : Prop :=
  some x ∈ f.before.map Entry.name?

instance (f : Frame) (x : String) : Decidable (f.Declares x) :=
  inferInstanceAs (Decidable (some x ∈ f.before.map Entry.name?))

namespace Surroundings

variable (around : Surroundings)

/-- The scopes, innermost first. -/
def scopes : List Frame :=
  around.filter (·.sort.isScope)

/-- How many scopes are inside the innermost one that has the name declared in front of the place. -/
def distance? (x : String) : Option Nat :=
  around.scopes.findIdx? (·.Declares x)

/-- The innermost scope has the name declared in front of the place. -/
def HasOwn (x : String) : Prop :=
  ∃ f ∈ around.scopes.head?, f.Declares x

instance (x : String) : Decidable (around.HasOwn x) :=
  inferInstanceAs (Decidable (∃ f ∈ around.scopes.head?, f.Declares x))

/-- The place is in the initial value of a local variable of that name, whose declaration is the first
of the name in its scope. -/
def Initializing (x : String) : Prop :=
  match around with
  | ⟨.initializer name, _⟩ :: f :: _ =>
    name.lexeme = x ∧ f.sort.isScope = true ∧ (f.before.map Entry.name?).count (some x) = 1
  | _ => False

instance (x : String) : Decidable (around.Initializing x) := by
  unfold Initializing
  split <;> infer_instance

/-- Whether the innermost class has a superclass, if there is a class. -/
def class? : Option Bool :=
  around.findSome? fun f =>
    match f.sort with
    | .class hasSuperclass => some hasSuperclass
    | _ => none

/-- The innermost function or method. -/
def body? : Option Region :=
  around.findSome? fun f =>
    match f.sort with
    | .function | .method _ => some f.sort
    | _ => none

end Surroundings

/-! ### What is at a site -/

namespace Site

variable (s : Site)

/-- The identity of the reference at the site. -/
def node? : Option NodeId :=
  match s.entry with
  | .expression (.variable node _) | .expression (.assign node _ _) | .expression (.this node _)
  | .expression (.super node _ _) => some node
  | _ => none

/-- The distance of what the site refers to. Outside of classes `this` has none, and so has `super`
where the class has no superclass. -/
def resolved? : Option Nat :=
  match s.entry with
  | .expression (.variable _ name) | .expression (.assign _ name _) =>
    s.around.distance? name.lexeme
  | .expression (.this _ keyword) =>
    if s.around.class?.isSome then s.around.distance? keyword.lexeme else none
  | .expression (.super _ keyword _) =>
    if s.around.class? = some true then s.around.distance? keyword.lexeme else none
  | _ => none

/-- What is wrong at the site itself. -/
def faults : List StaticError :=
  match s.entry with
  | .declaration name => if s.around.HasOwn name.lexeme then [⟨name, .alreadyDeclared⟩] else []
  | .expression (.variable _ name) =>
    if s.around.Initializing name.lexeme then [⟨name, .ownInitializer⟩] else []
  | .expression (.call (.get _ name) _ _) =>
    if name.lexeme = "init" then [⟨name, .directInitializerCall⟩] else []
  | .expression (.this _ keyword) =>
    if s.around.class? = none then [⟨keyword, .thisOutsideClass⟩] else []
  | .expression (.super _ keyword _) =>
    match s.around.class? with
    | none => [⟨keyword, .superOutsideClass⟩]
    | some false => [⟨keyword, .superWithoutSuperclass⟩]
    | some true => []
  | .return keyword hasValue =>
    match s.around.body? with
    | none => [⟨keyword, .returnAtTopLevel⟩]
    | some (.method name) =>
      if hasValue = true ∧ name.lexeme = "init" then [⟨keyword, .returnFromInitializer⟩] else []
    | some _ => []
  | .superclass name (.variable _ superName) =>
    if superName.lexeme = name.lexeme then [⟨superName, .selfInheritance⟩] else []
  | _ => []

end Site

end Treewalk
