import Mathlib.Algebra.Ring.Int.Defs
import Mathlib.Data.List.Sort

/-!
# Half-open time intervals (`worktime/domain/intervals.ts`)

Intervals `[start, stop)` in epoch milliseconds (integers), and the few set operations the
focus engine is made of. `stop` is the field `end` of the source. `Array.prototype.sort` is
stable, as `List.insertionSort` is; the loops over `out[out.length - 1]` carry that last
interval as an argument.
-/

namespace RxVision

/-- A half-open interval `[start, stop)`. -/
structure Interval where
  start : ℤ
  stop : ℤ
  deriving DecidableEq, Repr

namespace Interval

/-- An interval has a point. -/
def Proper (i : Interval) : Prop := i.start < i.stop

instance : DecidablePred Proper := fun i => inferInstanceAs (Decidable (i.start < i.stop))

/-- The comparison of `normalize`: by start. -/
def startLe (a b : Interval) : Prop := a.start ≤ b.start

instance : DecidableRel startLe := fun a b => inferInstanceAs (Decidable (a.start ≤ b.start))

/-- The comparison of `joinGaps`: by start, then by end. -/
def startStopLe (a b : Interval) : Prop := a.start < b.start ∨ a.start = b.start ∧ a.stop ≤ b.stop

instance : DecidableRel startStopLe := fun a b =>
  inferInstanceAs (Decidable (a.start < b.start ∨ a.start = b.start ∧ a.stop ≤ b.stop))

end Interval

open RxVision.Interval

/-- An interval from two instants; an open end runs to `now`. -/
def span (start : ℤ) (stop : Option ℤ) (now : ℤ) : Interval :=
  ⟨start, max start (stop.getD now)⟩

/-- The loop shared by `normalize` (`gap = 0`) and `joinGaps`: `last` is the interval at the end of
`out`, grown while the next one starts at most `gap` after it ends. -/
def mergeLoop (gap : ℤ) (last : Interval) : List Interval → List Interval
  | [] => [last]
  | i :: rest =>
    if i.start - last.stop ≤ gap then
      mergeLoop gap { last with stop := max last.stop i.stop } rest
    else last :: mergeLoop gap i rest

/-- `mergeLoop` from an empty `out`. -/
def merge (gap : ℤ) : List Interval → List Interval
  | [] => []
  | i :: rest => mergeLoop gap i rest

/-- Sorted, merged (touching or overlapping), non-empty intervals. -/
def normalize (list : List Interval) : List Interval :=
  merge 0 ((list.filter fun i => i.stop > i.start).insertionSort startLe)

/-- Sorted intervals with every gap of at most `gapMs` bridged; points of their own stay. -/
def joinGaps (list : List Interval) (gapMs : ℤ) : List Interval :=
  merge gapMs ((list.filter fun i => i.stop ≥ i.start).insertionSort startStopLe)

/-- Total length of the union, in ms. -/
def lengthMs (list : List Interval) : ℤ :=
  ((normalize list).map fun i => i.stop - i.start).sum

/-- The rounds of `intersect` that stay at one `x[i]`; `next` goes on with `x[i + 1]`. -/
def intersectRow (x : Interval) (next : List Interval → List Interval) :
    List Interval → List Interval
  | [] => []
  | y :: ys =>
    let start := max x.start y.start
    let stop := min x.stop y.stop
    let rest := if x.stop < y.stop then next (y :: ys) else intersectRow x next ys
    if stop > start then ⟨start, stop⟩ :: rest else rest

/-- The loop of `intersect` over the two normalized lists. -/
def intersectLoop : List Interval → List Interval → List Interval
  | [], _ => []
  | x :: xs, ys => intersectRow x (intersectLoop xs) ys

/-- Intersection of two unions. -/
def intersect (a b : List Interval) : List Interval :=
  intersectLoop (normalize a) (normalize b)

/-- The inner loop of `subtract`: what is left of a piece that ends at `stop`, from `cursor` on.
Once the cursor has passed the piece's end the loop breaks and nothing more is pushed. -/
def cutPiece (stop cursor : ℤ) : List Interval → List Interval
  | [] => if cursor < stop then [⟨cursor, stop⟩] else []
  | c :: cut =>
    if c.stop ≤ cursor ∨ c.start ≥ stop then cutPiece stop cursor cut
    else
      let cursor' := max cursor c.stop
      let rest := if cursor' ≥ stop then [] else cutPiece stop cursor' cut
      if c.start > cursor then ⟨cursor, c.start⟩ :: rest else rest

/-- `a` minus `b`. -/
def subtract (a b : List Interval) : List Interval :=
  let cut := normalize b
  (normalize a).flatMap fun piece => cutPiece piece.stop piece.start cut

/-- The two intervals share a point. -/
def overlaps (a b : Interval) : Bool := a.start < b.stop ∧ b.start < a.stop

/-- Whole seconds of `ms`, rounded (`Math.round`: halves go up). -/
def toSec (ms : ℤ) : ℤ := (ms + 500) / 1000

end RxVision
