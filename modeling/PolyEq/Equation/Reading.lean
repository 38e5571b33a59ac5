import PolyEq.Equation
import PolyEq.Term.Reading
import PolyEq.Text.Spacing

/-! # Reading an equation

A text with one equals sign is read side by side. Each side is tightened around its
operators and cut into fragments at its signs, and each fragment is read as a term. A
minus sign belongs to the fragment after it; a plus sign belongs to none.
-/

namespace PolyEq

/-- The sides of a text around its only equals sign, without the white space at their ends. -/
def splitSides (text : List Char) : Except ReadError (List Char × List Char) :=
  let count := text.count '='
  let left := trim (text.takeWhile (· ≠ '='))
  let right := trim ((text.dropWhile (· ≠ '=')).drop 1)
  if count ≠ 1 then .error (.equalSigns count)
  else if left = [] then .error (.emptySide .left)
  else if right = [] then .error (.emptySide .right)
  else .ok (left, right)

/-- Cuts a text at its signs into the fragment before the first sign and those after it. -/
def cutAtSigns (text : List Char) : List Char × List (List Char) :=
  text.foldr
    (fun c (first, later) =>
      if c = '+' then ([], first :: later)
      else if c = '-' then ([], ('-' :: first) :: later)
      else (c :: first, later))
    ([], [])

def fragments (expression : List Char) : List (List Char) :=
  let (first, later) := cutAtSigns expression
  (first :: later).filter fun fragment => !fragment.all isWhiteSpace

def hasConsecutivePlus : List Char → Bool
  | '+' :: '+' :: _ => true
  | _ :: text => hasConsecutivePlus text
  | [] => false

structure ReadTerm where
  fragment : List Char
  term : Term

/-- What was read of a side: the tightened text, the terms, and the fault that ended the reading. -/
structure SideReading where
  expression : List Char
  terms : List ReadTerm
  fault : Option ReadError

/-- Reads fragments in order up to the first faulty one. -/
def readFragments : List (List Char) → List ReadTerm × Option ReadError
  | [] => ([], none)
  | fragment :: later =>
    match Term.read fragment with
    | .error fault => ([], some fault)
    | .ok none => readFragments later
    | .ok (some t) =>
      let (terms, fault) := readFragments later
      (⟨fragment, t⟩ :: terms, fault)

def readSide (side : Side) (text : List Char) : SideReading :=
  let expression := Spacing.tighten text
  if expression.getLast?.any Spacing.isOperator then
    ⟨expression, [], some (.danglingOperator (.ofList expression))⟩
  else if hasConsecutivePlus expression then
    ⟨expression, [], some (.consecutivePlus (.ofList expression))⟩
  else if fragments expression = [] then
    ⟨expression, [], some (.noTerms side)⟩
  else
    let (terms, fault) := readFragments (fragments expression)
    ⟨expression, terms, fault⟩

def SideReading.result (reading : SideReading) : Except ReadError (List Term) :=
  match reading.fault with
  | some fault => .error fault
  | none => .ok (reading.terms.map ReadTerm.term)

namespace Equation

def ofSides (left right : List Term) : Equation :=
  (empty.addAll left .left).addAll right .right

def readText (text : List Char) : Except ReadError Equation := do
  let (left, right) ← splitSides text
  let leftTerms ← (readSide .left left).result
  let rightTerms ← (readSide .right right).result
  return ofSides leftTerms rightTerms

/-- Reads an equation. A fault on the left is reported before any on the right. -/
def read (text : String) : Except ReadError Equation :=
  readText text.toList

end Equation

end PolyEq
