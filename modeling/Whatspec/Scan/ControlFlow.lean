import Whatspec.Scan.Statements

/-!
# The control-flow predicates

What the requiredness of a field rests on: whether a list of statements throws on every path
(`throwsOut`), whether a statement ends the list it stands in (`endsTheStatementList`), whether a
list hangs (`hangsForever`), and which cases of a switch throw (`entryPathsThrow`).
-/

namespace Whatspec.Scan

/-- A jump that no label in `inside` takes. -/
def leavesLabels (inside : List String) : Option String → Bool
  | none => true
  | some l => !inside.contains l

/-! ### Quiet statements and hangs -/

mutual

/-- A statement that evaluates nothing and ends nothing. -/
def isQuiet : Stmt → Bool
  | .empty | .debugger => true
  | .block body => allQuiet body
  | _ => false

def allQuiet : List Stmt → Bool
  | [] => true
  | s :: rest => isQuiet s && allQuiet rest

end

mutual

/-- A loop body that goes round again and does nothing else. -/
def spins (label : Option String) : Stmt → Bool
  | .cont none => true
  | .cont (some l) => label = some l
  | .block body => allSpin label body
  | s => isQuiet s

def allSpin (label : Option String) : List Stmt → Bool
  | [] => true
  | s :: rest => spins label s && allSpin label rest

end

mutual

/-- A loop that is entered, cannot be left and evaluates nothing that could raise; `label` is the one
in front of it. -/
def hangsUnder (label : Option String) : Stmt → Bool
  | .whileLoop e body => e.alwaysTrue && spins label body
  | .doLoop body e => e.alwaysTrue && spins label body
  | .forLoop init test update body =>
    init.isNone && update.isNone && test.all Expr.alwaysTrue && spins label body
  | .labeled l s => hangsUnder (some l) s
  | .block body => hangsForever body
  | _ => false

/-- Whether a list can neither complete nor raise. -/
def hangsForever : List Stmt → Bool
  | [] => false
  | s :: rest => hangsUnder none s || (isQuiet s && hangsForever rest)

end

/-! ### What ends a list -/

/-- Whether a list is left by a transfer no exception can be raised before. -/
def leavesWithoutRaising (continueCounts : Bool) (inside : List String) : List Stmt → Bool
  | [] => false
  | .brk l :: _ => leavesLabels inside l
  | .cont l :: _ => continueCounts && leavesLabels inside l
  | .ret none :: _ => true
  | .block body :: rest =>
    leavesWithoutRaising continueCounts inside body ||
      (isQuiet (.block body) && leavesWithoutRaising continueCounts inside rest)
  | s :: rest => isQuiet s && leavesWithoutRaising continueCounts inside rest

mutual

/-- Whether nothing after a statement runs; `inside` are the labels in the statement asked about. -/
def endsTheListButFor (continueCounts : Bool) (inside : List String) : Stmt → Bool
  | .ret _ | .throw _ => true
  | .expr e => e.expressionThrows
  | .brk l => leavesLabels inside l
  | .cont l => continueCounts && leavesLabels inside l
  | .block body => anyEnds continueCounts inside body
  | .labeled l s => endsTheListButFor continueCounts (l :: inside) s
  | .ite _ a (some b) =>
    endsTheListButFor continueCounts inside a && endsTheListButFor continueCounts inside b
  | .try block handler finalizer =>
    blockEnds continueCounts inside finalizer ||
      (if handler.isSome then
        leavesWithoutRaising continueCounts inside block ||
          (anyEnds continueCounts inside block && blockEnds continueCounts inside handler)
      else anyEnds continueCounts inside block)
  | _ => false

def anyEnds (continueCounts : Bool) (inside : List String) : List Stmt → Bool
  | [] => false
  | s :: rest => endsTheListButFor continueCounts inside s || anyEnds continueCounts inside rest

/-- Whether a handler or a finalizer that is there ends. -/
def blockEnds (continueCounts : Bool) (inside : List String) : Option (List Stmt) → Bool
  | none => false
  | some body => anyEnds continueCounts inside body

end

def endsTheStatementList (s : Stmt) : Bool := endsTheListButFor true [] s

/-! ### Exits -/

mutual

/-- The walk of `contains_exit_where`: whether it finds a way out, with how many loops and switches
and which labels it has open. -/
def findsExit (throwCounts continueCounts : Bool) (loops switches : ℕ) (labels : List String) :
    Stmt → Bool
  | .empty | .debugger => false
  | .expr e | .decl e => throwCounts && e.staticThrow
  | .ret _ => true
  | .throw _ => throwCounts
  | .brk (some l) => !labels.contains l
  | .brk none => loops == 0 && switches == 0
  | .cont (some l) => !labels.contains l
  | .cont none => loops == 0 && continueCounts
  | .block body => listFindsExit throwCounts continueCounts loops switches labels body
  | .labeled l s => findsExit throwCounts continueCounts loops switches (l :: labels) s
  | .ite e a none =>
    (throwCounts && e.staticThrow) || findsExit throwCounts continueCounts loops switches labels a
  | .ite e a (some b) =>
    (throwCounts && e.staticThrow) ||
      findsExit throwCounts continueCounts loops switches labels a ||
        findsExit throwCounts continueCounts loops switches labels b
  | .whileLoop e body | .doLoop body e | .forEach e body =>
    (throwCounts && e.staticThrow) ||
      findsExit throwCounts continueCounts (loops + 1) switches labels body
  | .forLoop init test update body =>
    (throwCounts && (init.any Expr.staticThrow || test.any Expr.staticThrow ||
      update.any Expr.staticThrow)) ||
      findsExit throwCounts continueCounts (loops + 1) switches labels body
  | .switch e cases =>
    (throwCounts && e.staticThrow) ||
      casesFindExit throwCounts continueCounts loops (switches + 1) labels cases
  | .try block handler finalizer =>
    listFindsExit throwCounts continueCounts loops switches labels block ||
      blockFindsExit throwCounts continueCounts loops switches labels handler ||
        blockFindsExit throwCounts continueCounts loops switches labels finalizer
  | .withDo e body =>
    (throwCounts && e.staticThrow) || findsExit throwCounts continueCounts loops switches labels body

/-- A list is walked the way control goes: not behind a statement that ends it. -/
def listFindsExit (throwCounts continueCounts : Bool) (loops switches : ℕ) (labels : List String) :
    List Stmt → Bool
  | [] => false
  | s :: rest =>
    findsExit throwCounts continueCounts loops switches labels s ||
      (!endsTheStatementList s &&
        listFindsExit throwCounts continueCounts loops switches labels rest)

def blockFindsExit (throwCounts continueCounts : Bool) (loops switches : ℕ) (labels : List String) :
    Option (List Stmt) → Bool
  | none => false
  | some body => listFindsExit throwCounts continueCounts loops switches labels body

def casesFindExit (throwCounts continueCounts : Bool) (loops switches : ℕ) (labels : List String) :
    List Case → Bool
  | [] => false
  | .mk test body :: rest =>
    (throwCounts && test.any Expr.staticThrow) ||
      listFindsExit throwCounts continueCounts loops switches labels body ||
        casesFindExit throwCounts continueCounts loops switches labels rest

end

def containsExitWhere (s : Stmt) (throwCounts continueCounts : Bool) : Bool :=
  findsExit throwCounts continueCounts 0 0 [] s

def containsExit (s : Stmt) : Bool := containsExitWhere s true true

def exitsWithAValue (s : Stmt) : Bool := containsExitWhere s false true

def leavesTheLoopWithAValue (s : Stmt) : Bool := containsExitWhere s false false

/-- Whether an arm can end the switch rather than fall into the next one. -/
def leavesSwitch (body : List Stmt) (throwingCounts : Bool) : Bool :=
  body.any fun s => containsExitWhere s throwingCounts true

/-- The walk over a finalizer. -/
def finalizerLeaves : List Stmt → Bool
  | [] => false
  | s :: rest => exitsWithAValue s || (!endsTheStatementList s && finalizerLeaves rest)

/-- Whether the finalizer of a try can complete abruptly with something other than an error. -/
def finLeavesWithAValue (finalizer : Option (List Stmt)) : Bool :=
  finalizer.any finalizerLeaves

/-! ### Throwing out -/

mutual

/-- Whether every path through a list leaves by throwing. -/
def throwsOut : List Stmt → Bool
  | [] => false
  | s :: rest => statementThrows s || (!containsExit s && throwsOut rest)

/-- The same for one statement. -/
def statementThrows : Stmt → Bool
  | .throw _ => true
  | .expr e => e.expressionThrows
  | .block body => throwsOut body
  | .ite _ a (some b) => statementThrows a && statementThrows b
  | .labeled _ s => statementThrows s
  | .try block handler finalizer =>
    hangsForever block ||
      (!finLeavesWithAValue finalizer &&
        ((throwsOut block && (handler.isNone || blockThrows handler)) || blockThrows finalizer))
  | .whileLoop e body => e.alwaysTrue && !leavesTheLoopWithAValue body
  | .forLoop _ test _ body => test.all Expr.alwaysTrue && !leavesTheLoopWithAValue body
  | .doLoop body e => statementThrows body || (e.alwaysTrue && !leavesTheLoopWithAValue body)
  | .switch _ cases =>
    cases.any (fun c => c.test.isNone) && (entryPathsThrow cases).all id
  | _ => false

/-- Whether a handler or a finalizer that is there throws. -/
def blockThrows : Option (List Stmt) → Bool
  | none => false
  | some body => throwsOut body

/-- For each case, whether entering there leaves the switch by throwing on every path. -/
def entryPathsThrow : List Case → List Bool
  | [] => []
  | .mk _ body :: rest =>
    let later := entryPathsThrow rest
    (throwsOut body || (!leavesSwitch body false && later.headD false)) :: later

end

end Whatspec.Scan
