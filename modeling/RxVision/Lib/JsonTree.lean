import Mathlib.Data.Rat.Defs
import RxVision.Lib.Text

/-!
# JSON values with all their parts

What a `Json` column holds, as the code reads it. A property that is not there reads as `null`; no
reader tells the two apart.
-/

namespace RxVision

inductive JsonTree where
  | null
  | bool (b : Bool)
  | num (q : ℚ)
  | str (s : Units)
  | arr (elems : List JsonTree)
  | obj (fields : List (Units × JsonTree))

namespace JsonTree

/-- A property of an object. -/
def get : JsonTree → Units → JsonTree
  | obj fields, k => ((fields.find? fun p => p.1 = k).map Prod.snd).getD null
  | _, _ => null

/-- `Number.isInteger`. -/
def asInteger : JsonTree → Option ℤ
  | num q => if q.den = 1 then some q.num else none
  | _ => none

/-- A number that is an integer is read as that integer. -/
@[simp] theorem asInteger_intCast (n : ℤ) : (num n).asInteger = some n := rfl

end JsonTree

end RxVision
