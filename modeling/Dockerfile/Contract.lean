import Dockerfile.Text.Decimal

/-!
# Contracts

A check that a caller or a definition has kept its word.  A broken contract is reported with its
kind and a detail; it points to a mistake in the caller, never to the text that is being read.
-/

namespace Dockerfile

namespace Contract

inductive Kind where
  | precondition
  | postcondition
  | invariant
  deriving DecidableEq, Repr

def Kind.label : Kind → Bytes
  | .precondition => utf8 "PRECONDITION"
  | .postcondition => utf8 "POSTCONDITION"
  | .invariant => utf8 "INVARIANT"

structure Violation where
  kind : Kind
  detail : Bytes
  deriving DecidableEq, Repr

def Violation.message (v : Violation) : Bytes :=
  v.kind.label ++ utf8 " VIOLATION: " ++ v.detail

def check (kind : Kind) (condition : Bool) (detail : Bytes) : Except Violation Unit :=
  if condition then .ok () else .error ⟨kind, detail⟩

def boundsDetail (name : Bytes) (value low high : Int) : Bytes :=
  name ++ utf8 " must be in range [" ++ signedDecimal low ++ utf8 ", " ++ signedDecimal high ++
    utf8 "], got " ++ signedDecimal value

def inRange (value low high : Int) (name : Bytes) : Except Violation Unit :=
  check .precondition (low ≤ value && value ≤ high) (boundsDetail name value low high)

end Contract

end Dockerfile
