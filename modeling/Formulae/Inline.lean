import Formulae.Definition
import Formulae.Grammar.Block
import Formulae.Number.Basic

namespace Formulae.Inline

/-- The number of the next call for each function. -/
abbrev Counters := Table Nat

/-- What all new names for the parameters and locals of a function begin with. -/
def lead (function : String) : String := "_inline_" ++ function ++ "_"

/-- The numbers of calls are machine words, of which this is the greatest. What is greater is not
taken for a number of a call. -/
def greatestNumber : Nat := 0xFFFFFFFFFFFFFFFF

/-- The number of the call that a name was made for, if it was made for a call of `function`. -/
def callNumber? (function name : String) : Option Nat :=
  let start := (lead function).toList
  let name := name.toList
  if start.isPrefixOf name then
    let rest := name.drop start.length
    let digits := rest.takeWhile (· != '_')
    if digits.length < rest.length then
      (Decimal.readNat? digits).filter (· ≤ greatestNumber)
    else none
  else none

def namesOf (ss : List Statement) : Names :=
  ss.foldl (fun names s => (names ∪ s.reads).insert s.target) ∅

/-- One more than the greatest number of a call that is in use. It is no machine word if the
greatest of all is in use. -/
def firstNumber (names : Names) (function : String) : Nat :=
  names.toList.foldl (fun n x => ((callNumber? function x).map (max n <| · + 1)).getD n) 0

def countersFor (known : Table Definition) (ss : List Statement) : Counters :=
  known.map fun f _ => firstNumber (namesOf ss) f

/-- A function of which a call cannot be numbered. -/
def usedUp? (c : Counters) : Option String :=
  (c.toList.find? fun (_, n) => greatestNumber < n).map (·.1)

/-- A value, the statements that go before its use, and the counters after it. -/
structure Expansion (α : Type) where
  before : List Statement
  value : α
  counters : Counters

/-- The new names for the parameters and locals of a definition. -/
def newNames (d : Definition) (number : Nat) : Table String :=
  let start := lead d.name ++ toString number ++ "_"
  .ofList ((d.params ++ d.locals.toList).map fun x => (x, start ++ x))

/-- The expression for a call whose arguments have been inlined. -/
def expandCall (d : Definition) (args : List Expr) (span : Span) (c : Counters) :
    Except Fault (Expansion Expr) :=
  if args.length ≠ d.params.length then
    .error (.located (.argumentCount d.name d.params.length args.length) span)
  else
    match d.result with
    | none => .error (.located (.withoutResult d.name) span)
    | some result =>
      let number := c.getD d.name 0
      let names := newNames d number
      let passing := d.params.zipWith (fun x e => ⟨names.getD x x, .set, e⟩) args
      let body := d.body.map fun s =>
        { s with target := names.getD s.target s.target, value := s.value.rename names }
      if number < greatestNumber then
        .ok ⟨passing ++ body, result.rename names, c.insert d.name (number + 1)⟩
      else .error { reason := .numbersUsedUp d.name }

mutual

/-- An expression with the calls in it inlined. -/
def expandExpr (known : Table Definition) (c : Counters) : Expr → Except Fault (Expansion Expr)
  | .number s x sp => .ok ⟨[], .number s x sp, c⟩
  | .bool b sp => .ok ⟨[], .bool b sp, c⟩
  | .var x sp => .ok ⟨[], .var x sp, c⟩
  | .call f args sp => do
    let a ← expandList known c args
    match known[f]? with
    | none => return ⟨a.before, .call f a.value sp, a.counters⟩
    | some d =>
      let r ← expandCall d a.value sp a.counters
      return { r with before := a.before ++ r.before }
  | .unary op e sp => do
    let a ← expandExpr known c e
    return { a with value := .unary op a.value sp }
  | .binary op l r sp => do
    let a ← expandExpr known c l
    let b ← expandExpr known a.counters r
    return ⟨a.before ++ b.before, .binary op a.value b.value sp, b.counters⟩
  | .compare e rest sp => do
    let a ← expandExpr known c e
    let b ← expandRest known a.counters rest
    return ⟨a.before ++ b.before, .compare a.value b.value sp, b.counters⟩
  | .logical op es sp => do
    let a ← expandList known c es
    return ⟨a.before, .logical op a.value sp, a.counters⟩

def expandList (known : Table Definition) (c : Counters) :
    List Expr → Except Fault (Expansion (List Expr))
  | [] => .ok ⟨[], [], c⟩
  | e :: es => do
    let a ← expandExpr known c e
    let b ← expandList known a.counters es
    return ⟨a.before ++ b.before, a.value :: b.value, b.counters⟩

def expandRest (known : Table Definition) (c : Counters) :
    List (CmpOp × Expr) → Except Fault (Expansion (List (CmpOp × Expr)))
  | [] => .ok ⟨[], [], c⟩
  | (op, e) :: rest => do
    let a ← expandExpr known c e
    let b ← expandRest known a.counters rest
    return ⟨a.before ++ b.before, (op, a.value) :: b.value, b.counters⟩

end

def callsKnown (known : Table Definition) (s : Statement) : Bool :=
  s.value.functions.any known.contains

/-- The statements with the calls in them inlined, and the counters after them. -/
def pass (known : Table Definition) :
    Counters → List Statement → Except Fault (List Statement × Counters)
  | c, [] => .ok ([], c)
  | c, s :: ss => do
    let a ← expandExpr known c s.value
    let (rest, c) ← pass known a.counters ss
    return (a.before ++ { s with value := a.value } :: rest, c)

/-- Passes until no known function is called, but at most `bound`. -/
def passes (known : Table Definition) :
    (bound : Nat) → Counters → List Statement → Except Fault (List Statement)
  | 0, _, ss => .ok ss
  | bound + 1, c, ss =>
    if ss.any (callsKnown known) then do
      let (ss, c) ← pass known c ss
      passes known bound c ss
    else .ok ss

end Formulae.Inline

namespace Formulae

open Inline

/-- The statements with all calls of the given functions inlined. -/
def Statement.inlineAll (ds : List Definition) (ss : List Statement) :
    Except Fault (List Statement) :=
  let known := Table.ofDefinitions ds
  let counters := countersFor known ss
  match usedUp? counters, (CallGraph.ofDefinitions known).cycle? with
  | some f, _ => .error { reason := .numbersUsedUp f }
  | none, some path => .error { reason := .recursiveCalls path }
  | none, none => passes known known.size counters ss

def inlineText (ds : List Definition) (code : String) : Except Fault String := do
  let ss ← Statement.inlineAll ds (← Statement.parseBlock code)
  return Statement.blockText ss

end Formulae
