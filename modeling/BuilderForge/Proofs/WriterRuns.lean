import Mathlib.Order.Bounds.Basic
import Mathlib.Algebra.Order.Ring.Int
import BuilderForge.Proofs.Rows
/-
  Runs of a writer: any steps, one after the other.

  A step writes a line, a blank line or fragments, or it moves the level. What
  steps write follows from them and from the level at which they begin
  (`Step.rowsAll`), and a writer that takes them puts this after what it has
  written and changes nothing before it (`run_eq`).

  At the margin a move out is lost, so the level after steps is more than the
  moves in minus the moves out. `isGreatest_levelAll` says how much more: it is
  the greatest of what all the moves make of the first level and what the moves
  from any step on make of the margin.
-/

namespace BuilderForge.Code

/-- What a writer is told to do. -/
inductive Step where
  | line (s : Text)
  | blank
  | deeper
  | shallower
  | emit (fs : List Fragment)

namespace Step

/-- The level after a step. -/
def level (n : Nat) : Step → Nat
  | .deeper => n + 1
  | .shallower => n - 1
  | _ => n

/-- The rows that a step writes at a level. -/
def rows (n : Nat) : Step → List Row
  | .line s => [⟨n, s⟩]
  | .blank => [⟨0, []⟩]
  | .emit fs => Fragment.rowsAll n fs
  | _ => []

/-- The level after steps. -/
def levelAll (n : Nat) (steps : List Step) : Nat := steps.foldl level n

/-- The rows that steps write one after the other. -/
def rowsAll (n : Nat) : List Step → List Row
  | [] => []
  | s :: steps => s.rows n ++ rowsAll (s.level n) steps

/-- How far a step moves the level when there is room. -/
def move : Step → Int
  | .deeper => 1
  | .shallower => -1
  | _ => 0

/-- The moves in minus the moves out. -/
def net (steps : List Step) : Int := (steps.map move).sum

@[simp] theorem net_nil : net [] = 0 := rfl

@[simp] theorem net_cons (s : Step) (steps : List Step) : net (s :: steps) = s.move + net steps :=
  List.sum_cons

/-- A step moves the level as far as it can. -/
theorem level_eq_max (n : Nat) (s : Step) : (s.level n : Int) = max (n + s.move) 0 := by
  cases s <;> simp only [level, move] <;> omega

/-- The level after steps is what all the moves make of the first level, or what
the moves from some step on make of the margin, whichever is the greatest. -/
theorem isGreatest_levelAll (n : Nat) (steps : List Step) :
    IsGreatest (insert (n + net steps) {k | ∃ rest, rest <:+ steps ∧ net rest = k})
      (levelAll n steps : Int) := by
  induction steps generalizing n with
  | nil => simp [levelAll, IsGreatest, upperBounds]
  | cons s steps ih =>
    obtain ⟨hmem, hgreatest⟩ := ih (s.level n)
    have hlevel := level_eq_max n s
    rw [levelAll, List.foldl_cons, ← levelAll]
    constructor
    · rcases hmem with hall | ⟨rest, hrest, hnet⟩
      · -- a move that is lost leaves the margin to the steps after it
        rcases le_total 0 (n + s.move) with hroom | hlost
        · rw [max_eq_left hroom] at hlevel
          exact .inl (by rw [hall, hlevel, net_cons, Int.add_assoc])
        · rw [max_eq_right hlost] at hlevel
          exact .inr ⟨steps, List.suffix_cons s steps, by rw [hall, hlevel, Int.zero_add]⟩
      · exact .inr ⟨rest, hrest.trans (List.suffix_cons s steps), hnet⟩
    · have hmove : n + s.move ≤ s.level n := by
        rw [hlevel]
        exact le_max_left _ _
      have hall : (s.level n : Int) + net steps ≤ levelAll (s.level n) steps := hgreatest (.inl rfl)
      rintro k (rfl | ⟨rest, hrest, rfl⟩)
      · rw [net_cons]
        omega
      · rcases List.suffix_cons_iff.1 hrest with rfl | hrest
        · rw [net_cons]
          omega
        · exact hgreatest (.inr ⟨rest, hrest, rfl⟩)

end Step

namespace Writer

/-- The writer after a step. -/
def step (w : Writer) : Step → Writer
  | .line s => w.line s
  | .blank => w.blank
  | .deeper => w.deeper
  | .shallower => w.shallower
  | .emit fs => w.emitAll fs

/-- The writer after steps. -/
def run (w : Writer) (steps : List Step) : Writer := steps.foldl step w

/-- A step moves the level as it says and writes its rows. -/
theorem step_eq (w : Writer) (s : Step) : (w.step s).level = s.level w.level ∧
    (w.step s).indentation = w.indentation ∧
    (w.step s).text = w.text ++ printRows w.indentation.unit (s.rows w.level) := by
  cases s with
  | line s => exact ⟨rfl, rfl, w.text_line s⟩
  | blank => exact ⟨rfl, rfl, w.text_blank⟩
  | deeper => exact ⟨rfl, rfl, (List.append_nil _).symm⟩
  | shallower => exact ⟨rfl, rfl, (List.append_nil _).symm⟩
  | emit fs => exact w.emitAll_eq fs

/-- Steps move the level as they say and write their rows. -/
theorem run_eq (w : Writer) (steps : List Step) : (w.run steps).level = Step.levelAll w.level steps ∧
    (w.run steps).indentation = w.indentation ∧
    (w.run steps).text = w.text ++ printRows w.indentation.unit (Step.rowsAll w.level steps) := by
  induction steps generalizing w with
  | nil => exact ⟨rfl, rfl, (List.append_nil _).symm⟩
  | cons s steps ih =>
    obtain ⟨hlevel, hindentation, htext⟩ := w.step_eq s
    obtain ⟨hlevel', hindentation', htext'⟩ := ih (w.step s)
    rw [run, List.foldl_cons, ← run, Step.levelAll, List.foldl_cons, ← Step.levelAll, Step.rowsAll]
    refine ⟨hlevel'.trans (by rw [hlevel]), hindentation'.trans hindentation, ?_⟩
    rw [htext', hlevel, hindentation, htext, printRows_append, List.append_assoc]

theorem run_append (w : Writer) (steps more : List Step) :
    w.run (steps ++ more) = (w.run steps).run more := List.foldl_append

theorem emitAll_append (w : Writer) (fs gs : List Fragment) :
    w.emitAll (fs ++ gs) = (w.emitAll fs).emitAll gs := by
  induction fs generalizing w with
  | nil => rfl
  | cons f fs ih => rw [List.cons_append, emitAll, emitAll, ih]

/-- Fragments leave the level alone, write their rows at it after what was
written, and may be emitted in parts. Whatever steps a writer takes, it writes
at the end only, and its level is the count of the moves, which stops at the
margin. -/
theorem renders_compositionally (w : Writer) :
    (∀ fs, (w.emitAll fs).level = w.level ∧ (w.emitAll fs).indentation = w.indentation ∧
      (w.emitAll fs).text = w.text ++ printRows w.indentation.unit (Fragment.rowsAll w.level fs)) ∧
    (∀ fs gs, w.emitAll (fs ++ gs) = (w.emitAll fs).emitAll gs) ∧
    ∀ steps,
      (w.run steps).text = w.text ++ printRows w.indentation.unit (Step.rowsAll w.level steps) ∧
      (∀ more, (w.run steps).text <+: (w.run (steps ++ more)).text) ∧
      (w.run steps).level = Step.levelAll w.level steps ∧
      IsGreatest (insert (w.level + Step.net steps) {k | ∃ rest, rest <:+ steps ∧ Step.net rest = k})
        ((w.run steps).level : Int) := by
  refine ⟨w.emitAll_eq, w.emitAll_append, fun steps => ?_⟩
  obtain ⟨hlevel, -, htext⟩ := w.run_eq steps
  refine ⟨htext, fun more => ?_, hlevel, ?_⟩
  · rw [run_append, ((w.run steps).run_eq more).2.2]
    exact List.prefix_append _ _
  · rw [hlevel]
    exact Step.isGreatest_levelAll w.level steps

end Writer

end BuilderForge.Code
