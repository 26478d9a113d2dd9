/-
  Values at run time, the errors of a run, and arithmetic on values.

  * `Value.add` adds numbers: integers exactly or not at all, anything with a
    double as doubles;
  * `Value.pow` raises integers to non-negative integers exactly or not at
    all, with exponents of at most 32 bits, and everything else as doubles;
  * `squaringPow?` does so by repeated squaring.
-/
import Stacklet.Constant
import Stacklet.Instr.Codec

namespace Stacklet

/-! ## Values -/

/-- A function that every unit finds under its name. -/
inductive Builtin where
  | print
  | pow
  deriving DecidableEq, Repr

def Builtin.name : Builtin → String
  | print => "print"
  | pow => "pow"

def Builtin.ofName? (name : String) : Option Builtin :=
  if name = "print" then some .print else if name = "pow" then some .pow else none

/-- What the stack and the globals hold. -/
inductive Value where
  | none
  | int (n : Int64)
  | float (x : Binary64)
  | builtin (f : Builtin)
  deriving DecidableEq, Repr

/-- The type of a value. -/
inductive ValueType where
  | none
  | int
  | float
  | builtin
  deriving DecidableEq, Repr

def ValueType.text : ValueType → String
  | none => "NoneType"
  | int => "int"
  | float => "float"
  | builtin => "builtin_function"

namespace Value

def type : Value → ValueType
  | none => .none
  | int _ => .int
  | float _ => .float
  | builtin _ => .builtin

/-- The value of a constant. -/
def ofConstant : Constant → Value
  | .none => none
  | .int n => int n
  | .float x => float x

/-- How a value is printed. -/
def text : Value → String
  | none => "None"
  | int n => toString n.toInt
  | float x => x.text
  | builtin f => "<built-in function " ++ f.name ++ ">"

end Value

/-! ## Errors -/

/-- An operation on numbers. -/
inductive Operation where
  | addition
  | power
  deriving DecidableEq, Repr

/-- How type errors call an operation. -/
def Operation.symbol : Operation → String
  | addition => "+"
  | power => "pow"

/-- How overflow errors call an operation. -/
def Operation.noun : Operation → String
  | addition => "addition"
  | power => "pow"

/-- A value of the wrong type, or too few or many of them. -/
inductive TypeFault where
  | operands (operation : Operation) (left right : ValueType)
  | powArguments (count : Nat)
  | notCallable (type : ValueType)
  deriving DecidableEq, Repr

def TypeFault.text : TypeFault → String
  | operands operation left right =>
    "unsupported operand type(s) for " ++ operation.symbol ++ ": '" ++ left.text ++ "' and '" ++
      right.text ++ "'"
  | powArguments count => "pow expected 2 arguments, got " ++ toString count
  | notCallable type => "'" ++ type.text ++ "' object is not callable"

/-- A pool that operands point into. -/
inductive PoolKind where
  | constant
  | name
  deriving DecidableEq, Repr

def PoolKind.text : PoolKind → String
  | constant => "constant"
  | name => "name"

/-- Why a run ends without a value. -/
inductive RuntimeError where
  | undefinedName (name : String)
  | type (fault : TypeFault)
  | overflow (operation : Operation)
  | stackUnderflow (offset : Nat) (op : Opcode)
  | badOperand (index : Nat) (pool : PoolKind) (offset : Nat)
  | missingReturn
  | stepLimit (limit : Nat)
  | stackLimit (limit : Nat)
  | decode (e : DecodeError)
  | output (reason : String)
  deriving DecidableEq, Repr

namespace RuntimeError

/-- What went wrong. -/
def text : RuntimeError → String
  | undefinedName name => "name '" ++ name ++ "' is not defined"
  | type fault => "type error: " ++ fault.text
  | overflow operation => "integer overflow in " ++ operation.noun
  | stackUnderflow offset op =>
    "stack underflow at offset " ++ toString offset ++ " (" ++ op.mnemonic ++ ")"
  | badOperand index pool offset =>
    "operand " ++ toString index ++ " out of range for " ++ pool.text ++ " pool at offset " ++
      toString offset
  | missingReturn => "code object ended without RETURN_VALUE"
  | stepLimit limit => "execution step limit exceeded (" ++ toString limit ++ ")"
  | stackLimit limit => "stack size limit exceeded (" ++ toString limit ++ ")"
  | decode e => e.message
  | output reason => "output failed: " ++ reason

def message (e : RuntimeError) : String := "runtime error: " ++ e.text

end RuntimeError

/-! ## Arithmetic -/

/-- The product, if it has at most 64 bits. -/
def mulInt? (x y : Int64) : Option Int64 := int64? (x.toInt * y.toInt)

/-- `acc * base ^ e` by repeated squaring, given up at the first product that
    has more than 64 bits. The base is not squared behind the last factor. -/
def squaringFrom? (acc base : Int64) (e : Nat) : Option Int64 :=
  if e = 0 then some acc
  else if e = 1 then mulInt? acc base
  else
    (if e % 2 = 1 then mulInt? acc base else some acc).bind fun acc =>
      (mulInt? base base).bind fun base => squaringFrom? acc base (e / 2)
termination_by e

/-- The power `b ^ e`, if it has at most 64 bits. -/
def squaringPow? (b : Int64) (e : Nat) : Option Int64 := squaringFrom? 1 b e

/-- The largest exponent of an integer power. -/
def maxExponent : Nat := 0xffffffff

namespace Value

/-- The double of an integer. -/
def double (n : Int64) : Binary64 := .ofInt n.toInt

/-- The sum of two values. -/
def add : Value → Value → Except RuntimeError Value
  | int x, int y =>
    match int64? (x.toInt + y.toInt) with
    | some n => .ok (int n)
    | Option.none => .error (.overflow .addition)
  | int x, float y => .ok (float ((double x).add y))
  | float x, int y => .ok (float (x.add (double y)))
  | float x, float y => .ok (float (x.add y))
  | x, y => .error (.type (.operands .addition x.type y.type))

/-- The power of two values. -/
def pow : Value → Value → Except RuntimeError Value
  | int b, int e =>
    if 0 ≤ e.toInt then
      if e.toInt.toNat ≤ maxExponent then
        match squaringPow? b e.toInt.toNat with
        | some n => .ok (int n)
        | Option.none => .error (.overflow .power)
      else .error (.overflow .power)
    else .ok (float ((double b).pow (double e)))
  | int b, float e => .ok (float ((double b).pow e))
  | float b, int e => .ok (float (b.pow (double e)))
  | float b, float e => .ok (float (b.pow e))
  | b, e => .error (.type (.operands .power b.type e.type))

end Value

end Stacklet
