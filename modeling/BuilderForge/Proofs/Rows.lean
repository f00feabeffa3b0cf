import BuilderForge.Code.Writer
import BuilderForge.Proofs.Texts
/-
  Rows: what fragments of code say, before anything is indented.

  A row is a line of code and the depth at which it stands; a blank line stands
  at the margin. The rows of a fragment depend on the fragment and on the depth
  around it only. `emitAll_eq`: emitting fragments leaves the level as it was
  and writes their rows, each after as many units of indentation as it is deep.
-/

namespace BuilderForge.Code

/-- A line of code and its depth. -/
structure Row where
  depth : Nat
  text : Text
  deriving DecidableEq, Repr

mutual

/-- The rows of a fragment at a depth. -/
def Fragment.rows (depth : Nat) : Fragment → List Row
  | .line s => [⟨depth, s⟩]
  | .blank => [⟨0, []⟩]
  | .indent body => rowsAll (depth + 1) body
  | .block header body close =>
    ⟨depth, header⟩ :: (rowsAll (depth + 1) body ++ close.toList.map (Row.mk depth))

/-- The rows of fragments one after the other. -/
def Fragment.rowsAll (depth : Nat) : List Fragment → List Row
  | [] => []
  | f :: fs => f.rows depth ++ rowsAll depth fs

end

theorem Fragment.rowsAll_append (depth : Nat) (fs gs : List Fragment) :
    rowsAll depth (fs ++ gs) = rowsAll depth fs ++ rowsAll depth gs := by
  induction fs with
  | nil => rfl
  | cons f fs ih => rw [List.cons_append, rowsAll, rowsAll, ih, List.append_assoc]

/-- The rows of fragments that are lines. -/
theorem Fragment.rowsAll_map_line (depth : Nat) (ts : List Text) :
    rowsAll depth (ts.map .line) = ts.map (Row.mk depth) := by
  induction ts with
  | nil => rfl
  | cons t ts ih => rw [List.map_cons, rowsAll, ih, rows]; rfl

mutual

/-- A row stands at the depth of its fragment or deeper, unless it is blank. -/
theorem Fragment.depth_le_of_mem_rows {depth : Nat} {r : Row} :
    (f : Fragment) → r ∈ f.rows depth → r.text = [] ∨ depth ≤ r.depth
  | .line s => by
    rw [rows, List.mem_singleton]
    rintro rfl
    exact .inr (Nat.le_refl _)
  | .blank => by
    rw [rows, List.mem_singleton]
    rintro rfl
    exact .inl rfl
  | .indent body => by
    rw [rows]
    exact fun h => (depth_le_of_mem_rowsAll body h).imp_right Nat.le_of_succ_le
  | .block header body close => by
    rw [rows, List.mem_cons, List.mem_append, List.mem_map]
    rintro (rfl | h | ⟨s, -, rfl⟩)
    · exact .inr (Nat.le_refl _)
    · exact (depth_le_of_mem_rowsAll body h).imp_right Nat.le_of_succ_le
    · exact .inr (Nat.le_refl _)

theorem Fragment.depth_le_of_mem_rowsAll {depth : Nat} {r : Row} :
    (fs : List Fragment) → r ∈ rowsAll depth fs → r.text = [] ∨ depth ≤ r.depth
  | [] => by
    rw [rowsAll]
    intro h
    cases h
  | f :: fs => by
    rw [rowsAll, List.mem_append]
    rintro (h | h)
    · exact depth_le_of_mem_rows f h
    · exact depth_le_of_mem_rowsAll fs h

end

/-- A row with its indentation, without its line end. -/
def Row.line (unit : Text) (r : Row) : Text := (List.replicate r.depth unit).flatten ++ r.text

/-- Rows as text. -/
def printRows (unit : Text) (rows : List Row) : Text := rows.flatMap fun r => r.line unit ++ ['\n']

@[simp] theorem printRows_nil (unit : Text) : printRows unit [] = [] := rfl

@[simp] theorem printRows_cons (unit : Text) (r : Row) (rows : List Row) :
    printRows unit (r :: rows) = r.line unit ++ '\n' :: printRows unit rows := by
  simp [printRows]

@[simp] theorem printRows_append (unit : Text) (rows rows' : List Row) :
    printRows unit (rows ++ rows') = printRows unit rows ++ printRows unit rows' := by
  simp [printRows]

/-- A last row at the margin is a line of its own. -/
theorem suffix_printRows_concat {unit : Text} {rows : List Row} (hne : rows ≠ []) (s : Text) :
    '\n' :: (s ++ ['\n']) <:+ printRows unit (rows ++ [⟨0, s⟩]) := by
  obtain rfl | ⟨first, r, rfl⟩ := List.eq_nil_or_concat rows
  · exact absurd rfl hne
  · refine ⟨printRows unit first ++ r.line unit, ?_⟩
    simp [Row.line]

/-- The lines of rows as text are the rows. -/
theorem pieces_printRows {unit : Text} (hunit : '\n' ∉ unit) {rows : List Row}
    (h : ∀ r ∈ rows, '\n' ∉ r.text) :
    Text.pieces '\n' (printRows unit rows) = rows.map (Row.line unit) ++ [[]] := by
  refine Text.pieces_flatMap_lineEnd _ _ fun r hr => ?_
  rw [Row.line, List.mem_append, List.mem_flatten, not_or]
  refine ⟨fun ⟨u, hu, hn⟩ => hunit ?_, h r hr⟩
  rwa [List.eq_of_mem_replicate hu] at hn

namespace Writer

theorem text_line (w : Writer) (s : Text) :
    (w.line s).text = w.text ++ printRows w.indentation.unit [⟨w.level, s⟩] := by
  simp [line, write, text, margin, Row.line, List.reverseAux_eq]

theorem text_blank (w : Writer) : w.blank.text = w.text ++ printRows w.indentation.unit [⟨0, []⟩] := by
  simp [blank, write, text, Row.line]

theorem close_eq (w : Writer) (c : Option Text) : (w.close c).level = w.level ∧
    (w.close c).indentation = w.indentation ∧ (w.close c).text =
      w.text ++ printRows w.indentation.unit (c.toList.map (Row.mk w.level)) := by
  cases c with
  | none => exact ⟨rfl, rfl, by simp [close]⟩
  | some s => exact ⟨rfl, rfl, w.text_line s⟩

mutual

/-- A fragment leaves level and indentation alone and writes its rows. -/
theorem emit_eq (w : Writer) : (f : Fragment) → (w.emit f).level = w.level ∧
    (w.emit f).indentation = w.indentation ∧
    (w.emit f).text = w.text ++ printRows w.indentation.unit (f.rows w.level)
  | .line s => ⟨rfl, rfl, by rw [emit, text_line, Fragment.rows]⟩
  | .blank => ⟨rfl, rfl, by rw [emit, text_blank, Fragment.rows]⟩
  | .indent body => by
    -- the level goes up before the body and down after it
    obtain ⟨hl, hi, ht⟩ := emitAll_eq w.deeper body
    rw [emit, Fragment.rows]
    refine ⟨?_, hi, ht⟩
    show (w.deeper.emitAll body).level - 1 = w.level
    rw [hl]
    rfl
  | .block header body last => by
    obtain ⟨hl, hi, ht⟩ := emitAll_eq (w.line header).deeper body
    have hlevel : ((w.line header).deeper.emitAll body).shallower.level = w.level := by
      show ((w.line header).deeper.emitAll body).level - 1 = w.level
      rw [hl]
      rfl
    obtain ⟨cl, ci, ct⟩ := close_eq ((w.line header).deeper.emitAll body).shallower last
    rw [emit, Fragment.rows]
    refine ⟨cl.trans hlevel, ci.trans hi, ?_⟩
    have hind : ((w.line header).deeper.emitAll body).shallower.indentation = w.indentation := hi
    have htext : ((w.line header).deeper.emitAll body).shallower.text =
        (w.line header).text ++ printRows w.indentation.unit (Fragment.rowsAll (w.level + 1) body) := ht
    rw [ct, hlevel, hind, htext, text_line]
    simp

/-- Fragments leave level and indentation alone and write their rows. -/
theorem emitAll_eq (w : Writer) : (fs : List Fragment) → (w.emitAll fs).level = w.level ∧
    (w.emitAll fs).indentation = w.indentation ∧
    (w.emitAll fs).text = w.text ++ printRows w.indentation.unit (Fragment.rowsAll w.level fs)
  | [] => ⟨rfl, rfl, by rw [emitAll, Fragment.rowsAll]; simp⟩
  | f :: fs => by
    obtain ⟨hl, hi, ht⟩ := emit_eq w f
    obtain ⟨hl', hi', ht'⟩ := emitAll_eq (w.emit f) fs
    rw [emitAll, Fragment.rowsAll]
    refine ⟨hl'.trans hl, hi'.trans hi, ?_⟩
    rw [ht', hl, hi, ht, printRows_append, List.append_assoc]

end

/-- The text of a new writer after fragments is the text of their rows. -/
theorem text_start_emitAll (indentation : Indent) (fs : List Fragment) :
    ((start indentation).emitAll fs).text = printRows indentation.unit (Fragment.rowsAll 0 fs) :=
  (emitAll_eq (start indentation) fs).2.2

end Writer
end BuilderForge.Code
