import Mathlib.Data.List.Basic

/-!
# Statements and how they complete

The statements of a parser's body, with the expressions in them opaque: of an expression only what
its evaluation may end in is kept, and what the scanner says about it.  `Exec` is the completion
semantics of the language: a run of a statement that ends, ends normally, by a throw, by a return or
by a jump.  A run that goes on forever has no completion.
-/

namespace Whatspec.Scan

/-- An expression: whether its evaluation may give a truthy or a falsy value, or raise.  The
scanner's two predicates on expressions answer `expressionThrows` and `alwaysTrue`, and are right;
`staticThrow` tells that a static block of a class in it holds a `throw`. -/
structure Expr where
  truthy : Bool
  falsy : Bool
  raises : Bool
  expressionThrows : Bool
  alwaysTrue : Bool
  staticThrow : Bool
  throws_right : expressionThrows = true → truthy = false ∧ falsy = false
  true_right : alwaysTrue = true → falsy = false ∧ raises = false

namespace Expr

/-- An expression of which nothing is known. -/
def unknown : Expr where
  truthy := true
  falsy := true
  raises := true
  expressionThrows := false
  alwaysTrue := false
  staticThrow := false
  throws_right := nofun
  true_right := nofun

/-- Whether the evaluation may give a value. -/
def yields (e : Expr) : Bool := e.truthy || e.falsy

end Expr

mutual

inductive Stmt where
  | empty
  | debugger
  | expr (e : Expr)
  /-- A declaration, which may evaluate something. -/
  | decl (e : Expr)
  | ret (arg : Option Expr)
  | throw (arg : Expr)
  | brk (label : Option String)
  | cont (label : Option String)
  | block (body : List Stmt)
  | labeled (label : String) (body : Stmt)
  | ite (test : Expr) (consequent : Stmt) (alternate : Option Stmt)
  | whileLoop (test : Expr) (body : Stmt)
  | doLoop (body : Stmt) (test : Expr)
  | forLoop (init test update : Option Expr) (body : Stmt)
  /-- `for … in` and `for … of`. -/
  | forEach (head : Expr) (body : Stmt)
  | switch (discriminant : Expr) (cases : List Case)
  | try (block : List Stmt) (handler finalizer : Option (List Stmt))
  | withDo (object : Expr) (body : Stmt)

/-- A case of a switch; the default has no test. -/
inductive Case where
  | mk (test : Option Expr) (consequent : List Stmt)

end

def Case.test : Case → Option Expr
  | .mk test _ => test

def Case.consequent : Case → List Stmt
  | .mk _ consequent => consequent

/-! ### Parts -/

mutual

/-- A statement and the statements in it. -/
def Stmt.parts : Stmt → List Stmt
  | .block body => .block body :: partsOf body
  | .labeled l body => .labeled l body :: body.parts
  | .ite e a none => .ite e a none :: a.parts
  | .ite e a (some b) => .ite e a (some b) :: (a.parts ++ b.parts)
  | .whileLoop e body => .whileLoop e body :: body.parts
  | .doLoop body e => .doLoop body e :: body.parts
  | .forLoop init test update body => .forLoop init test update body :: body.parts
  | .forEach e body => .forEach e body :: body.parts
  | .switch e cases => .switch e cases :: partsOfCases cases
  | .try block handler finalizer =>
    .try block handler finalizer ::
      (partsOf block ++ partsOfBlock handler ++ partsOfBlock finalizer)
  | .withDo e body => .withDo e body :: body.parts
  | s => [s]

/-- The statements in a list of statements. -/
def partsOf : List Stmt → List Stmt
  | [] => []
  | s :: rest => s.parts ++ partsOf rest

def partsOfBlock : Option (List Stmt) → List Stmt
  | none => []
  | some body => partsOf body

def partsOfCases : List Case → List Stmt
  | [] => []
  | .mk _ body :: rest => partsOf body ++ partsOfCases rest

end

/-! ### Completions -/

/-- How a run ends. -/
inductive Completion where
  | normal
  | throw
  | ret
  | brk (label : Option String)
  | cont (label : Option String)
  deriving DecidableEq

namespace Completion

/-- Whether a loop goes on after its body completed so; `labels` are the labels of the loop. -/
def continuesLoop (labels : List String) : Completion → Bool
  | normal => true
  | cont none => true
  | cont (some l) => l ∈ labels
  | _ => false

/-- A loop or a switch takes a break without a label. -/
def breakable : Completion → Completion
  | brk none => normal
  | c => c

/-- A labelled statement takes a break to its label. -/
def labeled (l : String) : Completion → Completion
  | brk (some l') => if l' = l then normal else brk (some l')
  | c => c

end Completion

/-- What is run: a statement, a list, or a loop from one of its later passes on. -/
inductive Code where
  | stmt (s : Stmt)
  | list (body : List Stmt)
  /-- A `for` loop behind its initializer. -/
  | forPass (test update : Option Expr) (body : Stmt)
  /-- A `for … in` or `for … of` loop behind its head. -/
  | eachPass (body : Stmt)

/-- Whether the test of a case can be reached: those before it do not match, and none raises. -/
def testReached (before : List Case) : Prop := ∀ c ∈ before, ∀ e, c.test = some e → e.yields = true

/-- The statements a switch runs when it is entered at the first of some cases. -/
def fallThrough (cases : List Case) : List Stmt := cases.flatMap Case.consequent

/-- Runs of the language that end; `labels` are the labels right in front of what is run. -/
inductive Exec : List String → Code → Completion → Prop where
  | empty {L} : Exec L (.stmt .empty) .normal
  | debugger {L} : Exec L (.stmt .debugger) .normal
  | expr {L e} : e.yields = true → Exec L (.stmt (.expr e)) .normal
  | exprRaise {L e} : e.raises = true → Exec L (.stmt (.expr e)) .throw
  | decl {L e} : e.yields = true → Exec L (.stmt (.decl e)) .normal
  | declRaise {L e} : e.raises = true → Exec L (.stmt (.decl e)) .throw
  | ret {L} : Exec L (.stmt (.ret none)) .ret
  | retValue {L e} : e.yields = true → Exec L (.stmt (.ret (some e))) .ret
  | retRaise {L e} : e.raises = true → Exec L (.stmt (.ret (some e))) .throw
  | throw {L e} : Exec L (.stmt (.throw e)) .throw
  | brk {L l} : Exec L (.stmt (.brk l)) (.brk l)
  | cont {L l} : Exec L (.stmt (.cont l)) (.cont l)
  | block {L body c} : Exec [] (.list body) c → Exec L (.stmt (.block body)) c
  | nil {L} : Exec L (.list []) .normal
  | cons {L s rest c} : Exec [] (.stmt s) .normal → Exec [] (.list rest) c →
      Exec L (.list (s :: rest)) c
  | consAbrupt {L s rest c} : Exec [] (.stmt s) c → c ≠ .normal → Exec L (.list (s :: rest)) c
  /-- A `continue` to the label of what is no loop is an early error: there is no such run. -/
  | labeled {L l s c} : Exec (l :: L) (.stmt s) c → c ≠ .cont (some l) →
      Exec L (.stmt (.labeled l s)) (c.labeled l)
  | iteRaise {L e a b} : e.raises = true → Exec L (.stmt (.ite e a b)) .throw
  | iteTrue {L e a b c} : e.truthy = true → Exec [] (.stmt a) c → Exec L (.stmt (.ite e a b)) c
  | iteFalse {L e a b c} : e.falsy = true → Exec [] (.stmt b) c →
      Exec L (.stmt (.ite e a (some b))) c
  | iteNone {L e a} : e.falsy = true → Exec L (.stmt (.ite e a none)) .normal
  | whileRaise {L e body} : e.raises = true → Exec L (.stmt (.whileLoop e body)) .throw
  | whileEnd {L e body} : e.falsy = true → Exec L (.stmt (.whileLoop e body)) .normal
  | whileLeave {L e body c} : e.truthy = true → Exec [] (.stmt body) c →
      c.continuesLoop L = false → Exec L (.stmt (.whileLoop e body)) c.breakable
  | whileAgain {L e body c c'} : e.truthy = true → Exec [] (.stmt body) c →
      c.continuesLoop L = true → Exec L (.stmt (.whileLoop e body)) c' →
      Exec L (.stmt (.whileLoop e body)) c'
  | doLeave {L e body c} : Exec [] (.stmt body) c → c.continuesLoop L = false →
      Exec L (.stmt (.doLoop body e)) c.breakable
  | doRaise {L e body c} : Exec [] (.stmt body) c → c.continuesLoop L = true →
      e.raises = true → Exec L (.stmt (.doLoop body e)) .throw
  | doEnd {L e body c} : Exec [] (.stmt body) c → c.continuesLoop L = true →
      e.falsy = true → Exec L (.stmt (.doLoop body e)) .normal
  | doAgain {L e body c c'} : Exec [] (.stmt body) c → c.continuesLoop L = true →
      e.truthy = true → Exec L (.stmt (.doLoop body e)) c' → Exec L (.stmt (.doLoop body e)) c'
  | forInitRaise {L e test update body} : e.raises = true →
      Exec L (.stmt (.forLoop (some e) test update body)) .throw
  | forInit {L init test update body c} : (∀ e, init = some e → e.yields = true) →
      Exec L (.forPass test update body) c → Exec L (.stmt (.forLoop init test update body)) c
  | forRaise {L e update body} : e.raises = true → Exec L (.forPass (some e) update body) .throw
  | forEnd {L e update body} : e.falsy = true → Exec L (.forPass (some e) update body) .normal
  | forLeave {L test update body c} : (∀ e, test = some e → e.truthy = true) →
      Exec [] (.stmt body) c → c.continuesLoop L = false →
      Exec L (.forPass test update body) c.breakable
  | forUpdateRaise {L e test body c} : (∀ e, test = some e → e.truthy = true) →
      Exec [] (.stmt body) c → c.continuesLoop L = true → e.raises = true →
      Exec L (.forPass test (some e) body) .throw
  | forAgain {L test update body c c'} : (∀ e, test = some e → e.truthy = true) →
      Exec [] (.stmt body) c → c.continuesLoop L = true →
      (∀ e, update = some e → e.yields = true) → Exec L (.forPass test update body) c' →
      Exec L (.forPass test update body) c'
  | eachHeadRaise {L e body} : e.raises = true → Exec L (.stmt (.forEach e body)) .throw
  | eachHead {L e body c} : e.yields = true → Exec L (.eachPass body) c →
      Exec L (.stmt (.forEach e body)) c
  | eachEnd {L body} : Exec L (.eachPass body) .normal
  /-- Taking the next value, binding it or closing the iterator may raise. -/
  | eachRaise {L body} : Exec L (.eachPass body) .throw
  | eachLeave {L body c} : Exec [] (.stmt body) c → c.continuesLoop L = false →
      Exec L (.eachPass body) c.breakable
  | eachAgain {L body c c'} : Exec [] (.stmt body) c → c.continuesLoop L = true →
      Exec L (.eachPass body) c' → Exec L (.eachPass body) c'
  | switchRaise {L e cases} : e.raises = true → Exec L (.stmt (.switch e cases)) .throw
  | switchTestRaise {L e before t body after} : e.yields = true → testReached before →
      t.raises = true → Exec L (.stmt (.switch e (before ++ .mk (some t) body :: after))) .throw
  | switchMatch {L e before t body after c} : e.yields = true → testReached before →
      t.yields = true → Exec [] (.list (fallThrough (.mk (some t) body :: after))) c →
      Exec L (.stmt (.switch e (before ++ .mk (some t) body :: after))) c.breakable
  | switchDefault {L e before body after c} : e.yields = true → testReached (before ++ after) →
      Exec [] (.list (fallThrough (.mk none body :: after))) c →
      Exec L (.stmt (.switch e (before ++ .mk none body :: after))) c.breakable
  | switchNone {L e cases} : e.yields = true → testReached cases →
      (∀ c ∈ cases, c.test ≠ none) → Exec L (.stmt (.switch e cases)) .normal
  | tryBlock {L block handler c} : Exec [] (.list block) c → (handler = none ∨ c ≠ .throw) →
      Exec L (.stmt (.try block handler none)) c
  | tryCatch {L block h c} : Exec [] (.list block) .throw → Exec [] (.list h) c →
      Exec L (.stmt (.try block (some h) none)) c
  /-- Binding the parameter of the handler may raise. -/
  | tryBindRaise {L block h} : Exec [] (.list block) .throw →
      Exec L (.stmt (.try block (some h) none)) .throw
  | tryFinally {L block handler f c} : Exec [] (.stmt (.try block handler none)) c →
      Exec [] (.list f) .normal → Exec L (.stmt (.try block handler (some f))) c
  | tryOverride {L block handler f c c'} : Exec [] (.stmt (.try block handler none)) c →
      Exec [] (.list f) c' → c' ≠ .normal → Exec L (.stmt (.try block handler (some f))) c'
  | withRaise {L e body} : e.raises = true → Exec L (.stmt (.withDo e body)) .throw
  | withBody {L e body c} : Exec [] (.stmt body) c → Exec L (.stmt (.withDo e body)) c

end Whatspec.Scan
