import ByteRegex.Program.Basic
import ByteRegex.Text.Quoted
import ByteRegex.Text.Utf8

/-!
# Listings

A program written out for a reader, one operation to a line: its index, its
name, what it holds, its partner if it has one, and where the program goes on.
A run of literals is shown as quoted text, a set by its size, and a quantifier by
its bounds.

## Main definitions

* `Operation.details`: What an operation holds.
* `Program.listing`: The program, one operation to a line.
-/

namespace ByteRegex

/-- A number at the right end of a field of three characters. -/
def indexField (n : Nat) : String :=
  let digits := toString n
  String.ofList (List.replicate (3 - digits.length) ' ') ++ digits

/-- The bounds of a quantifier in braces, and its eagerness if it has none. -/
def Quantifier.listing (q : Quantifier) : String :=
  let high := match q.max with
    | some n => toString n
    | none => ""
  " \x7b" ++ toString q.min ++ "," ++ high ++ "\x7d" ++ (if q.greedy then "" else " lazy")

/-- What an operation holds. -/
def Operation.details : Operation → String
  | literal word table =>
    " " ++ Text.quoted (Utf8.lossy word) ++ (if table.isSome then " kmp" else "")
  | set s => " (" ++ toString s.size ++ " bytes)"
  | quantifier q => q.listing
  | openGroup n => " " ++ toString n.val
  | closeGroup n => " " ++ toString n.val
  | _ => ""

/-- The partner of a quantifier or a loop. -/
def LinkedOperation.partnerListing (op : LinkedOperation) : String :=
  match op.partner with
  | none => ""
  | some n =>
    match op.operation with
    | .loop => " quant=" ++ toString n
    | _ => " loop=" ++ toString n

/-- One line of a listing. -/
def LinkedOperation.listing (index : Nat) (op : LinkedOperation) : String :=
  indexField index ++ ": " ++ op.operation.name ++ op.operation.details ++ op.partnerListing ++
    " -> " ++ toString op.next ++ "\n"

/-- The program, one operation to a line. -/
def Program.listing (p : Program) : String :=
  String.join (p.operations.toList.zipIdx.map fun (op, i) => op.listing i)

end ByteRegex
