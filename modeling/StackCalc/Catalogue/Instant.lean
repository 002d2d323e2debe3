import StackCalc.Operand.Arithmetic
import StackCalc.Operation

/-!
Times. Spans and instants are made from a number of seconds.
-/

namespace StackCalc.Catalogue

/-- An exact scalar. A float counts as the fraction of its digits. -/
def secondCounts : Signature where
  accepted := [[.exact]]
  limited := some .real
  conversions := [⟨.real, .rational⟩]
  deferred := false

def times : Signature := { accepted := [[.of .time]], broadcast := false, deferred := false }

/-- The time of the seconds that an operand holds. -/
def timeOf (op : String) (absolute : Bool) : Calc Unit :=
  Calc.unary op secondCounts fun _ a => do
    Operand.requirePlain op [a]
    let q ← Operand.realFactor op a.value
    return .plain (.time (.ofSeconds q absolute))

def secondsOf (a : Operand) : Except Error Operand :=
  match a.value with
  | .time t => .ok (.plain (.rational t.seconds))
  | v => .error (.typeMismatch "seconds" v.kind.name)

def now : Operation where
  name := "now"
  arity := 0
  results := 1
  help := ⟨"The current instant", "( -- time )", "now", ["->abs", "seconds"]⟩
  action := .primitive (do Calc.replaceTop 0 [.plain (.time ⟨(← get).clock, true⟩)])

def toDuration : Operation where
  name := "->time"
  aliases := ["→time"]
  arity := 1
  results := 1
  help := ⟨"Duration of x seconds", "( x -- duration )", "90 ->time", ["->abs", "seconds"]⟩
  action := .primitive (timeOf "->time" false)

def toAbsolute : Operation where
  name := "->abs"
  aliases := ["→abs"]
  arity := 1
  results := 1
  help := ⟨"Instant x seconds after the Unix epoch", "( x -- time )", "0 ->abs", ["->time", "now"]⟩
  action := .primitive (timeOf "->abs" true)

def seconds : Operation where
  name := "seconds"
  arity := 1
  results := 1
  help := ⟨"Exact number of seconds in a duration, or since the epoch",
    "( time -- x )", "90 ->time seconds", ["->time"]⟩
  action := .primitive (Calc.unary "seconds" times fun _ a => secondsOf a)

def instants : List Operation :=
  [now, toDuration, toAbsolute, seconds]

end StackCalc.Catalogue
