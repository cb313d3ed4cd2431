import Ordinate.Derivative.InPlace
import Ordinate.Expression.Evaluate
import Ordinate.Sampling.Sweep

/-!
# Curves

* `Curve` : points in the order of their `x`;
* `Expression.sampled`, `Expression.curve` : the curve of a node along a sweep;
* `Expression.plotted`, `Expression.curves` : the curve of an expression, and of its derivative if
  that is asked for.
-/

namespace Ordinate

structure Point where
  x : Float
  y : Float

abbrev Curve : Type :=
  List Point

structure Curves where
  function : Curve
  derivative : Option Curve

namespace Expression

/-- The curve of a node in place. -/
def sampled (e : Expression) (p : e.Place) (s : Sweep Float) :
    StateM (Array Journal.Entry) Curve := do
  let n ← s.counted .float Literal.spell
  return (s.firstPoints .float n).map fun x => ⟨x, e.evaluate .float x p⟩

def plotted (e : Expression) (s : Sweep Float) (withDerivative : Bool) :
    StateM (Array Journal.Entry) Curves := do
  let function ← e.sampled e.root s
  if withDerivative then
    let (d, record) := e.derivativeWith e.root { journal := ← get }
    set record.journal
    let derivative ← d.sampled d.root s
    return ⟨function, some derivative⟩
  else return ⟨function, none⟩

def curve (e : Expression) (p : e.Place) (s : Sweep Float) : Curve :=
  ((e.sampled p s).run #[]).1

def curves (e : Expression) (s : Sweep Float) (withDerivative : Bool) : Curves :=
  ((e.plotted s withDerivative).run #[]).1

def curvesEntries (e : Expression) (s : Sweep Float) (withDerivative : Bool) :
    List Journal.Entry :=
  ((e.plotted s withDerivative).run #[]).2.toList

end Expression

end Ordinate
