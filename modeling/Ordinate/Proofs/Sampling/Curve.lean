import Ordinate.Proofs.Derivative.Ruled
import Ordinate.Sampling.Curve

/-!
# The work for curves

* `Expression.run_sampled` : what one curve is, and what it adds to the journal;
* `Expression.run_plotted` : what the curves of an expression and of its derivative are, and what
  they add to the journal.
-/

namespace Ordinate.Expression

variable (e : Expression) (s : Sweep Float) (journal : Array Journal.Entry)

theorem run_sampled (p : e.Place) :
    (e.sampled p s).run journal =
      ((s.points .float).map fun x => ⟨x, e.evaluate .float x p⟩, journal ++ s.entries) := by
  simp only [sampled, StateT.run_bind, Sweep.run_counted]
  rfl

theorem curve_eq (p : e.Place) :
    e.curve p s = (s.points .float).map fun x => ⟨x, e.evaluate .float x p⟩ :=
  congrArg Prod.fst (e.run_sampled s #[] p)

/-- The derivative is differentiated with a record of its own between the two curves: its journal
stands between the warnings of the two counts. -/
theorem run_plotted :
    (e.plotted s true).run journal =
      (⟨e.curve e.root s, some ((e.derivative e.root).curve (e.derivative e.root).root s)⟩,
        journal ++ s.entries ++ (e.derivativeWith e.root {}).2.gaps.map Gap.entry ++
          s.entries) := by
  have hgaps := e.derivativeWith_eq e.root
  simp only [derivative, hgaps, GapRecord.noteAll_eq, Array.empty_append, curve_eq]
  simp only [plotted, StateT.run_bind, run_sampled, hgaps, GapRecord.noteAll_eq, if_true]
  rfl

end Ordinate.Expression
